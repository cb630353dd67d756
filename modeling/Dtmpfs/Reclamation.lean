import Dtmpfs.ValidPlacements
import Dtmpfs.FreshNumbers

/-! What the metadata server forgets, it has the stores forget: a placement leaves the
table only with a `DeleteBlock` to each of its nodes. -/
namespace Dtmpfs
open MetaService MetaState OrderedMap

/-- Blocks are asked for regular files only. -/
def AllocatesFiles (call : Call) (s : MetaState) : Prop :=
  match call with
  | .allocateBlocks ino _ => ∀ inode : Inode, s.inodes[ino]? = some inode → inode.kind = .file
  | _ => True

/-- The request fires a `DeleteBlock` of the block to where `node` was last heard of. -/
def Deletes (host : Host) (call : Call) (s : MetaState) (ino : InodeId) (idx : BlockIdx) (node : NodeId) : Prop :=
  ∃ info, s.nodes[node]? = some info ∧ (⟨node,"http://" ++ info.addr,⟨ino,idx,0⟩⟩ : DeleteBlock) ∈ fired host call s

/-- What makes deletes reach everything: tables belong to directories, blocks to files, and
placements to registered nodes, and the counter is above every number in use. -/
structure Traceable (s : MetaState) : Prop where
  tidy : s.Tidy
  below : Below s
  files : ∀ (i : InodeId) (inode : Inode), s.inodes[i]? = some inode → inode.kind = .file ∨ inode.blocks = ∅
  registered : ∀ ino idx placement, placementOf s ino idx = some placement → ∀ node ∈ placement.nodes,
    s.nodes.contains node = true
  filed : Filed s

section Step

variable {host : Host} {call : Call} {s : MetaState} {ino : InodeId} {idx : BlockIdx} {placement : BlockPlacement}

theorem serve_tidy (host : Host) (call : Call) (tidy : s.Tidy) (unused : ¬ s.view.live s.nextIno) : (serve host call s).Tidy := by
  have dead (i : InodeId) (owns : s.view.table i) : i ≠ s.nextIno := by
    intro same
    exact unused (same ▸ s.view_wellformed.folderLive i (tidy i owns))
  have changed {t : MetaState} {T : Namespace InodeId String} (view : t.view = T) (sound : ∀ i, T.table i → T.folder i) : t.Tidy := by
    intro i
    rw [view]
    exact sound i
  rcases serve_view tidy host call (fun _ owns => dead _ owns rfl) with ⟨_,same⟩ | ⟨_,p,n,isFolder,_,_,view,_⟩ |
    ⟨_,p,n,i,_,_,view,_⟩ | ⟨r,rfl⟩
  · exact changed (view_congr same.kinds same.dirs) tidy
  · refine changed view ?_
    intro i owns
    rcases owns with new | old
    · exact .inl new
    · exact .inr ⟨dead i old,tidy i old⟩
  · refine changed view ?_
    intro j owns
    exact ⟨owns.1,tidy j owns.2⟩
  · rcases rename_view tidy r with same | ⟨_,_,_,view,_⟩ | ⟨_,T,_,destination,_,_,view,_⟩
    · rw [serve,same]
      exact tidy
    · exact changed view tidy
    · refine changed view ?_
      rcases destination with ⟨_,rfl⟩ | ⟨dst,_,_,rfl⟩
      · exact tidy
      · intro j owns
        exact ⟨owns.1,tidy j owns.2⟩

/-- An inode that a `rename` takes away was its destination. -/
theorem rename_removes {r : RenameReq} {old : Inode} (before : s.inodes[ino]? = some old)
    (gone : (rename r s).state.inodes[ino]? = none) :
    s.resolve r.dstParentIno r.dstName = some ino ∧ (rename r s).reply = .ok () ∧
      ∃ replaced cleared, removeDestination r s = (.ok replaced,cleared) := by
  rcases rename_cases r s with ⟨_,failed⟩ | ⟨_,_,_,_,_,lost⟩ | ⟨src,replaced,cleared,_,_,_,removed,_,_,ok,state⟩
  · rw [failed,before] at gone
    cases gone
  · rw [lost] at gone
    cases before.symm.trans gone
  · refine ⟨?_,ok,replaced,cleared,removed⟩
    by_contra other
    obtain ⟨_,_,kept⟩ := (removeDestination_cleared removed).inodes ino other
    obtain ⟨_,_,still⟩ := adjustLinks_keeps r src ((cleared.putDir r.srcParentIno _).putDir r.dstParentIno _) ino
    rw [state,still] at gone
    simp only [putDir,kept,before] at gone
    cases gone

theorem deletes_of_fired {blocks : List (BlockIdx × BlockPlacement)} (fires : fired host call s = fireDeleteBlocks s ino blocks)
    (member : (idx,placement) ∈ blocks) {node : NodeId} (listed : node ∈ placement.nodes) (known : s.nodes.contains node = true) :
    Deletes host call s ino idx node := by
  obtain ⟨info,registered⟩ := (contains_iff _ _).mp known
  refine ⟨info,registered,?_⟩
  rw [fires,mem_fireDeleteBlocks]
  exact ⟨idx,placement,node,info,member,listed,registered,rfl⟩

theorem setAttr_deletes {r : SetAttrReq} {old : Inode} (found : s.inodes[r.ino]? = some old) (had : old.blocks[idx]? = some placement)
    (known : ∀ node ∈ placement.nodes, s.nodes.contains node = true) :
    placementOf (serve host (.setAttr r) s) r.ino idx = some placement ∨
      placementOf (serve host (.setAttr r) s) r.ino idx = none ∧
        ∀ node ∈ placement.nodes, Deletes host (.setAttr r) s r.ino idx node := by
  rcases setAttr_cases host r s with ⟨missing,_⟩ | ⟨inode,after,found',_,_,state,outcome⟩
  · rw [found] at missing
    cases missing
  · cases found.symm.trans found'
    have placed : placementOf (serve host (.setAttr r) s) r.ino idx = after.blocks[idx]? := by
      simp only [serve,state,placementOf,putInode,get_insert,if_true,Option.bind_some]
    rw [placed]
    rcases outcome with ⟨_,_,blocks,_⟩ | ⟨_,_,blocks,deletes⟩
    · exact .inl (blocks ▸ had)
    · rw [blocks]
      cases size : r.size with
      | none => exact .inl had
      | some n =>
        rw [size] at deletes
        simp only [resize,get_filter,had]
        cases shrunk : drops old.size n idx with
        | false => exact .inl rfl
        | true =>
          have dropped : (idx,placement) ∈ (old.blocks.filter (fun idx _ => drops old.size n idx)).toList := by
            rw [Std.ExtTreeMap.mem_toList_iff_getElem?_eq_some,get_filter,had,shrunk]
            rfl
          have fires : fired host (.setAttr r) s = fireDeleteBlocks s r.ino (resize (some n) old).2 := deletes
          exact .inr ⟨rfl,fun node listed => deletes_of_fired fires dropped listed (known node listed)⟩

/-- Whoever takes an inode away deletes its blocks. -/
theorem removed_deletes {old : Inode} (traceable : Traceable s) (before : s.inodes[ino]? = some old)
    (had : old.blocks[idx]? = some placement) (cause : Removes call) (gone : (serve host call s).inodes[ino]? = none) :
    ∀ node ∈ placement.nodes, Deletes host call s ino idx node := by
  have known := traceable.registered ino idx placement (by rw [placementOf_of before,had])
  have isFile : old.kind = .file := by
    rcases traceable.files ino old before with file | empty
    · exact file
    · simp [empty] at had
  have member : (idx,placement) ∈ old.blocks.toList := Std.ExtTreeMap.mem_toList_iff_getElem?_eq_some.mpr had
  cases call with
  | unlink parent name =>
    rcases unlink_cases parent name s with ⟨_,failed⟩ | ⟨dir,child,inode,_,_,alive,_,done⟩
    · rw [serve,failed,before] at gone
      cases gone
    · rw [serve,done] at gone
      simp only [unlinked,get_erase] at gone
      split at gone
      next same =>
        subst same
        cases before.symm.trans alive
        have fires : fired host (.unlink parent name) s = fireDeleteBlocks s child old.blocks.toList := by rw [fired,done]
        exact fun node listed => deletes_of_fired fires member listed (known node listed)
      next =>
        rw [before] at gone
        cases gone
  | rmdir parent name =>
    rcases rmdir_cases parent name s with ⟨_,failed⟩ | ⟨dir,child,childDir,_,_,owns,_,_,done⟩
    · rw [serve,failed,before] at gone
      cases gone
    · -- the child owns a table, so it is no file
      have apart : child ≠ ino := by
        intro same
        have folder := traceable.tidy child ⟨childDir,owns⟩
        obtain ⟨inode,found,kind⟩ := (folder_iff s child).mp folder
        rw [same,before] at found
        cases found
        rw [isFile] at kind
        cases kind
      have edited := KeptBut.editNlink (p := parent) (q := parent) (i := ino) {s with
        dirs := (s.dirs.erase child).insert parent (dir.erase name)
        inodes := s.inodes.erase child} (· - 1) (.inl rfl)
      obtain ⟨_,_,kept⟩ := edited
      rw [serve,done] at gone
      simp only [removedDir,kept,get_erase,if_neg apart,before] at gone
      cases gone
  | rename r =>
    obtain ⟨slot,ok,replaced,cleared,removed⟩ := rename_removes before gone
    intro node listed
    obtain ⟨info,registered⟩ := (contains_iff _ _).mp (known node listed)
    refine ⟨info,registered,?_⟩
    exact (rename_fires traceable.tidy ok removed (rename_nodes r s).nodes _).mpr
      ⟨ino,old,idx,placement,node,info,slot,before,isFile,had,listed,registered,rfl⟩
  | _ => cases cause

/-- A placement is kept by a request, or deleted everywhere as it goes. -/
theorem serve_deletes (traceable : Traceable s) (placed : placementOf s ino idx = some placement) :
    placementOf (serve host call s) ino idx = some placement ∨
      placementOf (serve host call s) ino idx = none ∧ ∀ node ∈ placement.nodes, Deletes host call s ino idx node := by
  obtain ⟨old,before,had⟩ := placementOf_some placed
  have change := serve_change host call s ino
  rw [before] at change
  cases after : (serve host call s).inodes[ino]? with
  | none =>
    rw [after] at change
    cases change with
    | removed _ cause =>
      refine .inr ⟨?_,removed_deletes traceable before had cause after⟩
      rw [placementOf,after]
      rfl
  | some new =>
    rw [after] at change
    have now : placementOf (serve host call s) ino idx = new.blocks[idx]? := placementOf_of after
    cases change with
    | kept _ _ _ _ blocks => exact .inl (by rw [now,blocks,had])
    | drawn _ _ _ number _ _ => exact absurd number (Nat.ne_of_gt (traceable.below ino old before))
    | published _ _ _ _ _ _ _ _ _ _ _ _ blocks => exact .inl (by rw [now,blocks,had])
    | placed _ _ _ _ _ _ extended => exact .inl (by rw [now,extended.keeps idx placement had])
    | resized _ _ r _ request mine _ _ _ _ =>
      subst request mine
      exact setAttr_deletes before had (traceable.registered _ idx placement placed)

theorem serve_traceable (traceable : Traceable s) (replicated : 0 < s.replicationFactor) (files : AllocatesFiles call s)
    (staffed : PlacesStaffed call s) (room : s.nextIno + (draws call s).toNat < 2^64) : Traceable (serve host call s) := by
  have kept := serve_nodesKept host call s
  have unused : ¬ s.view.live s.nextIno := by
    intro alive
    obtain ⟨inode,found⟩ := (s.live_iff _).mp alive
    exact Nat.lt_irrefl _ (traceable.below _ inode found)
  refine ⟨serve_tidy host call traceable.tidy unused,serve_below host traceable.below room,?_,?_,kept.filed traceable.filed⟩
  · intro i inode after
    have change := serve_change host call s i
    rw [after] at change
    cases before : s.inodes[i]? with
    | none =>
      rw [before] at change
      cases change with
      | drawn _ _ _ _ _ blocks => exact .inr blocks
    | some old =>
      rw [before] at change
      have same (kind : inode.kind = old.kind) (blocks : old.blocks = ∅ → inode.blocks = ∅) :
          inode.kind = .file ∨ inode.blocks = ∅ := by
        rcases traceable.files i old before with file | empty
        · exact .inl (kind.trans file)
        · exact .inr (blocks empty)
      cases change with
      | drawn _ _ _ _ _ blocks => exact .inr blocks
      | kept _ _ kind _ blocks => exact same kind blocks.trans
      | published _ _ _ _ _ _ _ _ _ _ kind _ blocks => exact same kind blocks.trans
      | resized _ _ r n _ _ _ kind _ blocks =>
        refine same kind ?_
        intro empty
        rw [blocks,empty]
        rfl
      | placed _ _ idxs request kind _ _ =>
        subst request
        exact .inl (kind.trans (files old before))
  · intro ino idx placement placed node listed
    refine kept.registered node ?_
    rcases serve_placed placed with had | ⟨inode,idxs,vacant,request,asked,found,chosen⟩
    · exact traceable.registered ino idx placement had node listed
    · subst request
      have up := staffed inode found ⟨idx,asked,by rw [← placementOf_of found,vacant]⟩
      have live := (liveNodes_nonempty host traceable.filed).mpr up
      obtain ⟨info,known,_⟩ := (place_staffed host traceable.filed replicated live).up node (chosen ▸ listed)
      exact (contains_iff _ _).mpr ⟨info,known⟩

end Step

section Run

variable {s : MetaState} {ino : InodeId} {idx : BlockIdx} {placement : BlockPlacement}

/-- A run that keeps to the conditions, within the room of the inode counter. -/
structure Regular (calls : List (Host × Call)) (s : MetaState) : Prop where
  files : Along AllocatesFiles calls s
  staffed : Along PlacesStaffed calls s
  room : s.nextIno + drawn calls s < 2^64

theorem Regular.next {host : Host} {call : Call} {rest : List (Host × Call)} (regular : Regular ((host,call)::rest) s)
    (traceable : Traceable s) (replicated : 0 < s.replicationFactor) :
    Traceable (serve host call s) ∧ 0 < (serve host call s).replicationFactor ∧ Regular rest (serve host call s) := by
  have drew : drawn ((host,call)::rest) s = (draws call s).toNat + drawn rest (serve host call s) := rfl
  have room := regular.room
  rw [drew] at room
  have small : s.nextIno + (draws call s).toNat < 2^64 := by omega
  refine ⟨serve_traceable traceable replicated regular.files.1 regular.staffed.1 small,?_,regular.files.2,regular.staffed.2,?_⟩
  · rw [(serve_nodesKept host call s).factor]
    exact replicated
  · rw [serve_nextIno host call s small]
    omega

theorem run_traceable (calls : List (Host × Call)) (regular : Regular calls s) (traceable : Traceable s)
    (replicated : 0 < s.replicationFactor) : Traceable (run calls s) := by
  induction calls generalizing s with
  | nil => exact traceable
  | cons head rest ih =>
    obtain ⟨next,factor,later⟩ := regular.next traceable replicated
    exact ih later next factor

/-- What is placed is still placed at the end of the run, or was deleted on the way. -/
theorem run_deletes (calls : List (Host × Call)) (regular : Regular calls s) (traceable : Traceable s)
    (replicated : 0 < s.replicationFactor) (placed : placementOf s ino idx = some placement) :
    placementOf (run calls s) ino idx = some placement ∨ ∃ mid host call rest, calls = mid ++ (host,call)::rest ∧
      ∀ node ∈ placement.nodes, Deletes host call (run mid s) ino idx node := by
  induction calls generalizing s with
  | nil => exact .inl placed
  | cons head rest ih =>
    obtain ⟨host,call⟩ := head
    rcases @serve_deletes host call s ino idx placement traceable placed with kept | ⟨_,deleted⟩
    · obtain ⟨next,factor,later⟩ := regular.next traceable replicated
      rcases ih later next factor kept with still | ⟨mid,host',call',more,split,deleted⟩
      · exact .inl still
      · exact .inr ⟨(host,call)::mid,host',call',more,by rw [split]; rfl,deleted⟩
    · exact .inr ⟨[],host,call,rest,rfl,deleted⟩

theorem traceable_new (now : SystemTime) (replicationFactor : Nat) : Traceable (new now replicationFactor) := by
  have unplaced (i : InodeId) (inode : Inode) (found : (new now replicationFactor).inodes[i]? = some inode) : inode.blocks = ∅ := by
    simp only [new,get_insert] at found
    split at found
    · cases found
      rfl
    · simp at found
  refine ⟨(sound_new now replicationFactor).tidy,below_new now replicationFactor,?_,?_,filed_new now replicationFactor⟩
  · intro i inode found
    exact .inr (unplaced i inode found)
  · intro ino idx placement placed
    obtain ⟨inode,found,known⟩ := placementOf_some placed
    simp [unplaced ino inode found] at known

end Run

/-- Reclamation is complete: in the step in which a placement leaves the metadata, each of
its nodes is sent the delete, so that what has ever been placed is placed still or has
been deleted. -/
theorem reclamation_complete (now : SystemTime) (replicationFactor : Nat) (replicated : 0 < replicationFactor)
    (calls : List (Host × Call)) (files : Along AllocatesFiles calls (new now replicationFactor))
    (staffed : Along PlacesStaffed calls (new now replicationFactor))
    (few : drawn calls (new now replicationFactor) < 2^64 - 2) :
    (∀ before host call after, calls = before ++ (host,call)::after → ∀ ino idx placement,
      placementOf (run before (new now replicationFactor)) ino idx = some placement →
      placementOf (run (before ++ [(host,call)]) (new now replicationFactor)) ino idx ≠ some placement →
      ∀ node ∈ placement.nodes, Deletes host call (run before (new now replicationFactor)) ino idx node) ∧
    ∀ before after, calls = before ++ after → ∀ ino idx placement,
      placementOf (run before (new now replicationFactor)) ino idx = some placement →
      placementOf (run calls (new now replicationFactor)) ino idx = some placement ∨
        ∃ mid host call rest, after = mid ++ (host,call)::rest ∧
          ∀ node ∈ placement.nodes, Deletes host call (run (before ++ mid) (new now replicationFactor)) ino idx node := by
  have start : (new now replicationFactor).nextIno = 2 := rfl
  have regular : Regular calls (new now replicationFactor) := ⟨files,staffed,by omega⟩
  have reached (before after : List (Host × Call)) (split : calls = before ++ after) :
      Traceable (run before (new now replicationFactor)) ∧ 0 < (run before (new now replicationFactor)).replicationFactor ∧
        Regular after (run before (new now replicationFactor)) := by
    subst split
    obtain ⟨files,files'⟩ := (along_append before after _).mp regular.files
    obtain ⟨staffed,staffed'⟩ := (along_append before after _).mp regular.staffed
    have room := regular.room
    rw [drawn_append] at room
    have early : Regular before (new now replicationFactor) := ⟨files,staffed,by omega⟩
    refine ⟨run_traceable before early (traceable_new now replicationFactor) replicated,?_,files',staffed',?_⟩
    · rw [(run_nodesKept before _).factor]
      exact replicated
    · rw [run_nextIno before _ early.room]
      omega
  refine ⟨?_,?_⟩
  · intro before host call after split ino idx placement placed gone node listed
    obtain ⟨traceable,_,_⟩ := reached before ((host,call)::after) split
    rw [run_snoc] at gone
    rcases serve_deletes traceable placed with kept | ⟨_,deleted⟩
    · exact absurd kept gone
    · exact deleted node listed
  · intro before after split ino idx placement placed
    obtain ⟨traceable,factor,later⟩ := reached before after split
    have outcome := run_deletes after later traceable factor placed
    rw [← run_append,← split] at outcome
    rcases outcome with still | ⟨mid,host,call,rest,halves,deleted⟩
    · exact .inl still
    · refine .inr ⟨mid,host,call,rest,halves,?_⟩
      rw [run_append]
      exact deleted

/-- The file `g`, inode 2, has a block on `n`. -/
def placedBlock : List (Host × Call) :=
  [(Host.still,.heartbeatNode 0 ⟨"n","a",0,0,0⟩),(Host.still,.create ⟨ROOT,"g",0,0,0⟩),(Host.still,.allocateBlocks 2 [0])]

theorem placedBlock_regular : Along AllocatesFiles placedBlock (new 0 1) ∧ Along PlacesStaffed placedBlock (new 0 1) := by
  refine ⟨⟨trivial,trivial,?_,trivial⟩,⟨trivial,trivial,?_,trivial⟩⟩
  · intro inode found
    have fresh : (run (placedBlock.take 2) (new 0 1)).inodes[(2 : InodeId)]? =
        some (freshInode Host.still ⟨ROOT,"g",0,0,0⟩ .file 2) := rfl
    cases fresh.symm.trans found
    rfl
  · intro _ _ _
    exact ⟨"n",⟨"n","a",0,0,.up⟩,rfl,rfl⟩

theorem reclamation_complete_unlinked :
    let calls := placedBlock ++ [(Host.still,Call.unlink ROOT "g")]
    placementOf (run placedBlock (new 0 1)) 2 0 = some ⟨"n",[]⟩ ∧ placementOf (run calls (new 0 1)) 2 0 = none ∧
      Deletes Host.still (.unlink ROOT "g") (run placedBlock (new 0 1)) 2 0 "n" := by
  intro calls
  obtain ⟨files,staffed⟩ := placedBlock_regular
  have placed : placementOf (run placedBlock (new 0 1)) 2 0 = some ⟨"n",[]⟩ := by decide
  have gone : placementOf (run calls (new 0 1)) 2 0 = none := by decide
  have complete := (reclamation_complete 0 1 (by decide) calls ((along_append _ _ _).mpr ⟨files,trivial,trivial⟩)
    ((along_append _ _ _).mpr ⟨staffed,trivial,trivial⟩) (by decide)).1
  refine ⟨placed,gone,complete placedBlock Host.still _ [] rfl 2 0 _ placed ?_ "n" List.mem_cons_self⟩
  intro still
  cases gone.symm.trans still

theorem create_unplaced {s : MetaState} (host : Host) (r : CreateReq) (idx : BlockIdx) {dir : Map String InodeId}
    (found : s.dirs[r.parentIno]? = some dir) (vacant : dir[r.name]? = none) :
    placementOf (serve host (.create r) s) s.nextIno idx = none := by
  rcases create_cases host r s with ⟨taken,_⟩ | ⟨_,_,_,made⟩
  · obtain ⟨child,present⟩ := (contains_iff _ _).mp (taken dir found)
    rw [vacant] at present
    cases present
  · simp only [serve,made,placementOf,created,get_insert,if_true,Option.bind_some,freshInode]
    simp

/-- Then every other number is drawn, the root's among them. -/
def numbersUsedUp : List (Host × Call) := placedBlock ++ createUnlink (2^64 - 1)

/-- The next file is stored over the placed one, and nothing is deleted. -/
theorem placed_file_replaced : let create := (Host.still,Call.create ⟨ROOT,"f",0,0,0⟩)
    Along AllocatesFiles (numbersUsedUp ++ [create]) (new 0 1) ∧ Along PlacesStaffed (numbersUsedUp ++ [create]) (new 0 1) ∧
      placementOf (run numbersUsedUp (new 0 1)) 2 0 = some ⟨"n",[]⟩ ∧
      placementOf (run (numbersUsedUp ++ [create]) (new 0 1)) 2 0 = none ∧
      ¬ Deletes Host.still create.2 (run numbersUsedUp (new 0 1)) 2 0 "n" := by
  intro create
  obtain ⟨files,staffed⟩ := placedBlock_regular
  have placed : placementOf (run placedBlock (new 0 1)) 2 0 = some ⟨"n",[]⟩ := by decide
  have table : (run placedBlock (new 0 1)).dirs[ROOT]? = some ((∅ : Map String InodeId).insert "g" 2) := rfl
  have next : (run placedBlock (new 0 1)).nextIno = 3 := rfl
  have vacant : ((∅ : Map String InodeId).insert "g" 2)["f"]? = none := by
    rw [get_insert,if_neg (by decide)]
    simp
  generalize started : run placedBlock (new 0 1) = s at placed table next
  obtain ⟨table',number,kept⟩ := createUnlink_run (2^64 - 1) s _ table vacant (by rw [next]; decide)
  generalize ran : run (createUnlink (2^64 - 1)) s = t at table' number kept
  have reached : run numbersUsedUp (new 0 1) = t := by rw [numbersUsedUp,run_append,started,ran]
  have still : t.inodes[(2 : InodeId)]? = s.inodes[(2 : InodeId)]? := by
    refine kept 2 ?_
    intro k low
    rw [next]
    intro same
    have two : (3 + k) % 2^64 = 2 := same
    omega
  have two : t.nextIno = 2 := by
    rw [number,next]
    decide
  refine ⟨?_,?_,?_,?_,?_⟩
  · rw [numbersUsedUp,along_append,along_append]
    exact ⟨⟨files,createUnlink_along (fun _ => trivial) (fun _ => trivial) _ _⟩,trivial,trivial⟩
  · rw [numbersUsedUp,along_append,along_append]
    exact ⟨⟨staffed,createUnlink_along (fun _ => trivial) (fun _ => trivial) _ _⟩,trivial,trivial⟩
  · rw [reached,placementOf,still]
    exact placed
  · have fresh := create_unplaced Host.still ⟨ROOT,"f",0,0,0⟩ 0 table' vacant
    rw [two] at fresh
    rw [run_snoc,reached]
    exact fresh
  · rw [reached]
    intro deletes
    obtain ⟨_,_,sent⟩ := deletes
    cases sent

end Dtmpfs
