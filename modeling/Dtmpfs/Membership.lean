import Dtmpfs.Semantics.Checked
import Dtmpfs.ValidPlacements

/-! The failure detector over whole runs: which nodes the metadata server takes to be up,
and what `statfs` makes of their reports. -/
namespace Dtmpfs
open MetaState OrderedMap

namespace MetaService

/-- The call is a heartbeat of the node. -/
def Call.renews (node : NodeId) : Call → Bool
  | .heartbeatNode _ r => r.nodeId = node
  | _ => false

/-- The call is a tick of the watcher that finds a heartbeat of that instant too old. -/
def Call.condemns (instant : Nat) : Call → Bool
  | .watcherTick now deadAfter => deadAfter < now - instant
  | _ => false

def Call.spares (instant : Nat) (node : NodeId) (call : Call) : Bool := !call.renews node && !call.condemns instant

/-- The reports that still count after the calls: the last of each node, if no tick since
found it too old. -/
def standing : List (Host × Call) → List HeartbeatReq
  | [] => []
  | (_,.heartbeatNode instant r)::after =>
    if after.all (fun later => later.2.spares instant r.nodeId) then r::standing after else standing after
  | _::after => standing after

end MetaService

open MetaService

/-- What the heartbeat puts into the table of nodes. -/
def reported (r : HeartbeatReq) : NodeInfo := ⟨r.nodeId,r.addr,r.usedBytes,r.capacityBytes,.up⟩

section Detector

variable {host : Host} {call : Call} {calls : List (Host × Call)} {s : MetaState} {node : NodeId} {r : HeartbeatReq} {instant : Nat}

def Silent (node : NodeId) (calls : List (Host × Call)) : Prop := ∀ later ∈ calls, later.2.renews node = false

def Timely (instant : Nat) (calls : List (Host × Call)) : Prop := ∀ later ∈ calls, later.2.condemns instant = false

theorem spared_iff : calls.all (fun later => later.2.spares instant node) = true ↔ Silent node calls ∧ Timely instant calls := by
  simp only [List.all_eq_true,Call.spares,Bool.and_eq_true,Bool.not_eq_true',Silent,Timely]
  constructor
  · intro spared
    exact ⟨fun later member => (spared later member).1,fun later member => (spared later member).2⟩
  · intro both later member
    exact ⟨both.1 later member,both.2 later member⟩

/-- The reports that count, by where their heartbeats stand in the run. -/
theorem mem_standing : r ∈ standing calls ↔ ∃ before host instant after,
    calls = before ++ (host,.heartbeatNode instant r)::after ∧ Silent r.nodeId after ∧ Timely instant after := by
  induction calls with
  | nil => simp [standing]
  | cons head rest ih =>
    have parts : (∃ before host instant after, head::rest = before ++ (host,.heartbeatNode instant r)::after ∧
        Silent r.nodeId after ∧ Timely instant after) ↔
        (∃ host instant, head = (host,.heartbeatNode instant r) ∧ Silent r.nodeId rest ∧ Timely instant rest) ∨ r ∈ standing rest := by
      rw [ih]
      constructor
      · intro split
        obtain ⟨before,host,instant,after,split,counts⟩ := split
        cases before with
        | nil =>
          injection split with same rest
          exact .inl ⟨host,instant,same,rest ▸ counts⟩
        | cons first before =>
          injection split with _ split
          exact .inr ⟨before,host,instant,after,split,counts⟩
      · intro either
        rcases either with ⟨host,instant,rfl,counts⟩ | ⟨before,host,instant,after,rfl,counts⟩
        · exact ⟨[],host,instant,rest,rfl,counts⟩
        · exact ⟨head::before,host,instant,after,rfl,counts⟩
    rw [parts]
    obtain ⟨host,call⟩ := head
    cases call with
    | heartbeatNode instant report =>
      rw [standing]
      split
      next stands =>
        rw [List.mem_cons]
        constructor
        · intro either
          rcases either with rfl | later
          · exact .inl ⟨host,instant,rfl,spared_iff.mp stands⟩
          · exact .inr later
        · intro either
          rcases either with ⟨_,_,same,_⟩ | later
          · injection same with _ same
            injection same with _ same
            exact .inl same.symm
          · exact .inr later
      next ended =>
        constructor
        · intro later
          exact .inr later
        · intro either
          rcases either with ⟨_,_,same,counts⟩ | later
          · injection same with _ same
            injection same with same named
            subst same named
            exact absurd (spared_iff.mpr counts) ended
          · exact later
    | _ => simp [standing]

/-- No two reports that count are of one node. -/
theorem standing_nodup (calls : List (Host × Call)) : ((standing calls).map (·.nodeId)).Nodup := by
  induction calls with
  | nil => exact List.nodup_nil
  | cons head rest ih =>
    obtain ⟨host,call⟩ := head
    cases call with
    | heartbeatNode instant report =>
      rw [standing]
      split
      next stands =>
        refine List.nodup_cons.mpr ⟨?_,ih⟩
        intro again
        obtain ⟨later,member,same⟩ := List.mem_map.mp again
        obtain ⟨before,host,instant',after,rfl,_⟩ := mem_standing.mp member
        have silent := (spared_iff.mp stands).1 (host,.heartbeatNode instant' later) (by simp)
        simp [Call.renews,same] at silent
      next => exact ih
    | _ => exact ih

/-- Only a heartbeat changes when a node was last heard of. -/
theorem serve_lastHeartbeat (host : Host) (s : MetaState) (calm : ¬ ∃ instant r, call = .heartbeatNode instant r) :
    (serve host call s).lastHeartbeat = s.lastHeartbeat := by
  cases call with
  | heartbeatNode instant r => exact absurd ⟨instant,r,rfl⟩ calm
  | watcherTick now deadAfter => rfl
  | lookup parent name => rfl
  | getAttr i => rfl
  | readDir r => rfl
  | listNodes => rfl
  | openInsert snapshot => rfl
  | «open» r =>
    simp only [serve]
    split <;> rfl
  | setAttr r =>
    rcases setAttr_cases host r s with ⟨_,missing⟩ | ⟨_,_,_,_,_,state,_⟩
    · simp only [serve,missing]
    · simp only [serve,state,putInode]
  | rename r =>
    simp only [serve]
    rcases rename_cases r s with ⟨_,failed⟩ | ⟨_,_,_,_,_,lost⟩ | ⟨src,replaced,cleared,srcDir,dstDir,_,removed,_,_,_,state⟩
    · rw [failed]
    · rw [lost]
      rfl
    · obtain ⟨inodes,dirs,shape⟩ := (removeDestination_cleared removed).rest
      obtain ⟨inodes',adjusted⟩ := adjustLinks_rest r src ((cleared.putDir r.srcParentIno
        (srcDir.erase r.srcName)).putDir r.dstParentIno (dstDir.insert r.dstName src))
      rw [state,adjusted,shape]
      rfl
  | create r =>
    rcases create_cases host r s with ⟨_,_,failed⟩ | ⟨_,_,_,made⟩
    · simp only [serve,failed]
    · simp only [serve,made]
      rfl
  | mkdir r =>
    rcases mkdir_cases host r s with ⟨_,_,failed⟩ | ⟨_,_,_,_,_,made⟩
    · simp only [serve,failed]
    · simp only [serve,made,madeDir,editNlink]
      split <;> rfl
  | unlink parent name =>
    rcases unlink_cases parent name s with ⟨_,failed⟩ | ⟨_,_,_,_,_,_,_,gone⟩
    · simp only [serve,failed]
    · simp only [serve,gone]
      rfl
  | rmdir parent name =>
    rcases rmdir_cases parent name s with ⟨_,failed⟩ | ⟨_,_,_,_,_,_,_,_,gone⟩
    · simp only [serve,failed]
    · simp only [serve,gone,removedDir,editNlink]
      split <;> rfl
  | close r =>
    rcases close_cases host r s with ⟨_,missing⟩ | ⟨_,_,⟨_,refused⟩ | ⟨_,_,⟨_,served⟩ | ⟨_,_,_,served⟩⟩⟩
    · simp only [serve,missing]
    · simp only [serve,refused]
      rfl
    · simp only [serve,served]
      rfl
    · simp only [serve,served]
      rfl
  | allocateBlocks ino idxs =>
    rcases allocateBlocks_cases host ino idxs s with ⟨_,missing⟩ | ⟨_,_,_,_,served,_⟩
    · simp only [serve,missing]
    · simp only [serve,served]
      rfl

/-- A node that sends nothing keeps its entry, and stays up as long as every tick finds
its last heartbeat young enough. -/
theorem serve_silent {info : NodeInfo} (silent : call.renews node = false) (beat : s.lastHeartbeat[node]? = some instant)
    (found : s.nodes[node]? = some info) : (serve host call s).lastHeartbeat[node]? = some instant ∧
      ∃ status, (serve host call s).nodes[node]? = some {info with status := status} ∧
        (status = .up ↔ info.status = .up ∧ call.condemns instant = false) := by
  by_cases beats : ∃ other r, call = .heartbeatNode other r
  · obtain ⟨other,r,rfl⟩ := beats
    have apart : r.nodeId ≠ node := by simpa [Call.renews] using silent
    simp only [serve,heartbeatNode,get_insert,apart,if_false]
    exact ⟨beat,info.status,found,by simp [Call.condemns]⟩
  by_cases ticks : ∃ now deadAfter, call = .watcherTick now deadAfter
  · obtain ⟨now,deadAfter,rfl⟩ := ticks
    refine ⟨beat,?_⟩
    simp only [serve,watcherTick,Std.ExtTreeMap.getElem?_map,found,beat,Option.map_some,Call.condemns]
    by_cases late : deadAfter < now - instant
    · exact ⟨.down,by simp [late],by simp [late]⟩
    · exact ⟨info.status,by simp [late],by simp [late]⟩
  have harmless : call.condemns instant = false := by
    cases call with
    | watcherTick now deadAfter => exact absurd ⟨now,deadAfter,rfl⟩ ticks
    | _ => rfl
  have same := ((serve_nodes host call s).resolve_left beats).resolve_left ticks
  rw [serve_lastHeartbeat host s beats,same.nodes]
  exact ⟨beat,info.status,found,by simp [harmless]⟩

theorem run_silent {info : NodeInfo} (silent : Silent node calls) (beat : s.lastHeartbeat[node]? = some instant)
    (found : s.nodes[node]? = some info) : ∃ status, (run calls s).nodes[node]? = some {info with status := status} ∧
      (status = .up ↔ info.status = .up ∧ Timely instant calls) := by
  induction calls generalizing s info with
  | nil => exact ⟨info.status,found,by simp [Timely]⟩
  | cons head rest ih =>
    obtain ⟨first,later⟩ := List.forall_mem_cons.mp silent
    obtain ⟨host,call⟩ := head
    obtain ⟨beat,status,found,up⟩ : (serve host call s).lastHeartbeat[node]? = some instant ∧
        ∃ status, (serve host call s).nodes[node]? = some {info with status := status} ∧
          (status = .up ↔ info.status = .up ∧ call.condemns instant = false) := serve_silent first beat found
    obtain ⟨final,found,stays⟩ := ih later beat found
    have parts : Timely instant ((host,call)::rest) ↔ call.condemns instant = false ∧ Timely instant rest := List.forall_mem_cons
    refine ⟨final,found,?_⟩
    rw [parts,← and_assoc,← up]
    exact stays

/-- A node that has never sent anything is not known. -/
theorem run_unheard (silent : Silent node calls) (unknown : s.nodes[node]? = none) : (run calls s).nodes[node]? = none := by
  cases found : (run calls s).nodes[node]? with
  | none => rfl
  | some info =>
    rcases run_registered calls s found with ⟨old,known⟩ | ⟨sender,instant,r,member,own⟩
    · rw [unknown] at known
      cases known
    · have quiet := silent _ member
      simp [Call.renews,own] at quiet

/-- Either the node has been silent all along, or there is a last heartbeat of it. -/
theorem silent_or_heard (node : NodeId) (calls : List (Host × Call)) : Silent node calls ∨
    ∃ before host instant r after, calls = before ++ (host,.heartbeatNode instant r)::after ∧ r.nodeId = node ∧ Silent node after := by
  induction calls with
  | nil => exact .inl (List.forall_mem_nil _)
  | cons head rest ih =>
    rcases ih with silent | ⟨before,host,instant,r,after,rfl,own,silent⟩
    · obtain ⟨host,call⟩ := head
      cases renewed : call.renews node with
      | false => exact .inl (List.forall_mem_cons.mpr ⟨renewed,silent⟩)
      | true =>
        cases call with
        | heartbeatNode instant r => exact .inr ⟨[],host,instant,r,rest,rfl,by simpa [Call.renews] using renewed,silent⟩
        | _ => simp [Call.renews] at renewed
    · exact .inr ⟨head::before,host,instant,r,after,rfl,own,silent⟩

theorem run_heard (before : List (Host × Call)) (silent : Silent r.nodeId calls) : ∃ status,
    (run (before ++ (host,.heartbeatNode instant r)::calls) s).nodes[r.nodeId]? = some {reported r with status := status} ∧
      (status = .up ↔ Timely instant calls) := by
  rw [run_append]
  have beat : (serve host (.heartbeatNode instant r) (run before s)).lastHeartbeat[r.nodeId]? = some instant := by
    simp [serve,heartbeatNode]
  have found : (serve host (.heartbeatNode instant r) (run before s)).nodes[r.nodeId]? = some (reported r) := by
    simp [serve,heartbeatNode,reported]
  obtain ⟨status,found,up⟩ := run_silent silent beat found
  exact ⟨status,found,by simpa [reported] using up⟩

end Detector

/-- `ListNodes` answers with the reports that count, each once: a node is up exactly as long
as no tick of the watcher has found its last heartbeat too old, and goes by what that said. -/
theorem listNodes_standing (calls : List (Host × Call)) (now : SystemTime) (factor : Nat) (host : Host) :
    (listNodes host (run calls (new now factor))).Perm ((standing calls).map reported) := by
  have filed := (run_nodesKept calls (new now factor)).filed (filed_new now factor)
  have listed : (listNodes host (run calls (new now factor))).Nodup := (liveNodes_nodup host filed).of_map _
  have counted : ((standing calls).map reported).Nodup := by
    refine List.Nodup.of_map NodeInfo.nodeId ?_
    rw [List.map_map]
    exact standing_nodup calls
  refine (List.perm_ext_iff_of_nodup listed counted).mpr ?_
  intro info
  rw [mem_listNodes host filed,List.mem_map]
  constructor
  · intro both
    obtain ⟨found,up⟩ := both
    rcases silent_or_heard info.nodeId calls with silent | ⟨before,sender,instant,r,after,rfl,own,silent⟩
    · rw [run_unheard silent (by simp [new])] at found
      cases found
    · rw [← own] at silent found
      obtain ⟨status,entry,timely⟩ := run_heard  before silent
      rw [entry] at found
      cases found
      refine ⟨r,mem_standing.mpr ⟨before,sender,instant,after,rfl,silent,timely.mp up⟩,?_⟩
      rw [show status = .up from up]
      rfl
  · intro named
    obtain ⟨r,member,rfl⟩ := named
    obtain ⟨before,sender,instant,after,rfl,silent,timely⟩ := mem_standing.mp member
    obtain ⟨status,entry,up⟩ := run_heard  before silent
    rw [up.mpr timely] at entry
    exact ⟨entry,rfl⟩

/-- The figures of `ReplyStatfs::statfs`. -/
structure StatfsReply where
  blocks : Nat
  bfree : Nat
  bavail : Nat
  files : Nat
  ffree : Nat
  bsize : Nat
  namelen : Nat
  frsize : Nat
deriving DecidableEq, Repr

/-- `statfs`, given what `ListNodes` answers. It panics on a block size of zero, and where
the build checks for overflow also if a sum leaves `u64`. -/
def statfs (overflowChecks : Bool) (blockSize : Nat) (resp : Except Status (List NodeInfo)) : Option StatfsReply :=
  let sum (items : List Nat) : Option Nat := if overflowChecks then Checked.sum 64 items else some (Checked.wrappingSum 64 items)
  match resp with
  | .ok nodes => do
    let total ← sum (nodes.map (·.ramTotal))
    let used ← sum (nodes.map (·.ramUsed))
    let free := total - used
    let blocks ← Checked.div total blockSize
    let bfree ← Checked.div free blockSize
    let bavail ← Checked.div free blockSize
    return ⟨blocks,bfree,bavail,0,0,Checked.cast 32 blockSize,255,0⟩
  | .error _ => some ⟨0,0,0,0,0,Checked.cast 32 blockSize,255,0⟩

/-- The reply for the two sums, of which a build without checks sees the low 64 bits. -/
def statfsOf (overflowChecks : Bool) (blockSize total used : Nat) : Option StatfsReply :=
  if blockSize = 0 ∨ overflowChecks = true ∧ (2^64 ≤ total ∨ 2^64 ≤ used) then none
  else
    let free := total % 2^64 - used % 2^64
    some ⟨total % 2^64 / blockSize,free / blockSize,free / blockSize,0,0,blockSize % 2^32,255,0⟩

theorem statfs_eq (overflowChecks : Bool) (blockSize : Nat) (nodes : List NodeInfo) : statfs overflowChecks blockSize (.ok nodes) =
    statfsOf overflowChecks blockSize (nodes.map (·.ramTotal)).sum (nodes.map (·.ramUsed)).sum := by
  simp only [statfs,statfsOf,Checked.sum_eq,Checked.wrappingSum_eq]
  generalize (nodes.map (·.ramTotal)).sum = total
  generalize (nodes.map (·.ramUsed)).sum = used
  generalize 2^64 = limit
  by_cases positive : 0 < blockSize
  · have block : blockSize ≠ 0 := Nat.ne_of_gt positive
    cases overflowChecks with
    | false => simp [block,Checked.div_eq positive,Checked.cast]
    | true =>
      by_cases totals : total < limit
      · by_cases uses : used < limit
        · simp [totals,uses,block,Checked.div_eq positive,Checked.cast,Nat.mod_eq_of_lt]
        · simp [totals,uses,Nat.not_lt.mp uses]
      · simp [totals,Nat.not_lt.mp totals]
  · obtain rfl := Nat.eq_zero_of_not_pos positive
    cases overflowChecks with
    | false => simp [Checked.div]
    | true =>
      simp only [Checked.div,if_true,Option.bind_eq_bind,true_or]
      split <;> simp

/-- What `df` shows after any run: the capacities of the reports that count, less what they
say is used, whatever order the table of nodes is walked in. -/
theorem statfs_standing (calls : List (Host × Call)) (now : SystemTime) (factor : Nat) (host : Host) (overflowChecks : Bool)
    (blockSize : Nat) : statfs overflowChecks blockSize (.ok (listNodes host (run calls (new now factor)))) =
      statfsOf overflowChecks blockSize ((standing calls).map (·.capacityBytes)).sum ((standing calls).map (·.usedBytes)).sum := by
  have listed := listNodes_standing calls now factor host
  have totals : ((listNodes host (run calls (new now factor))).map (·.ramTotal)).sum = ((standing calls).map (·.capacityBytes)).sum := by
    rw [(listed.map (·.ramTotal)).sum_eq,List.map_map]
    rfl
  have uses : ((listNodes host (run calls (new now factor))).map (·.ramUsed)).sum = ((standing calls).map (·.usedBytes)).sum := by
    rw [(listed.map (·.ramUsed)).sum_eq,List.map_map]
    rfl
  rw [statfs_eq,totals,uses]

/-- Of three nodes one is silent for too long, and one comes back at a new address. -/
example : (standing [(Host.still,.heartbeatNode 0 ⟨"n","a",1,8,0⟩),(Host.still,.heartbeatNode 0 ⟨"m","b",2,8,0⟩),
    (Host.still,.heartbeatNode 5 ⟨"k","c",3,8,0⟩),(Host.still,.watcherTick 6 5),(Host.still,.heartbeatNode 7 ⟨"n","d",4,8,0⟩)]).map reported =
    [⟨"k","c",3,8,.up⟩,⟨"n","d",4,8,.up⟩] := by decide

end Dtmpfs
