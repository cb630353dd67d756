import Dtmpfs.StoreRouting

/-! `fetch_block` with the channels of its client. What the pool does on the way does not
show in what a fetch returns and caches. -/
namespace Dtmpfs
open MetaService MetaState OrderedMap

namespace StoreClientPool

/-- The replica loop of `fetch_block` with its channels; each request finds the network
as it is then. -/
def tryStores (bs : Nat) (net : NodeId → Network) :
    List NodeId → DtmpfsError → StoreClientPool → Except DtmpfsError (Bytes × Bool) × StoreClientPool
  | [],lastErr,pool => (.error lastErr,pool)
  | node::rest,_,pool =>
    match pool.readBlock (net node) node with
    | (.data bytes,pool) => (.ok (bytes,true),pool)
    | (.notFound,pool) => (.ok (zeros bs,false),pool)
    | (.noClient,pool) | (.failed,pool) => tryStores bs net rest (.storeUnavailable node) pool

/-- All of `fetch_block`. `listing` is the reply to `list_nodes`, if one comes. -/
def fetchBlock (bs : Nat) (net : NodeId → Network) (listing : Option (List NodeInfo)) (file : OpenFile) (idx : BlockIdx)
    (cache : BlockCache) (pool : StoreClientPool) : (Except DtmpfsError Bytes × BlockCache) × StoreClientPool :=
  match file.dirty[idx]? with
  | some buf => ((.ok buf,cache),pool)
  | none =>
    match cache[file.cacheKey idx]? with
    | some bytes => ((.ok bytes,cache),pool)
    | none =>
      let pool := pool.lazyRefresh listing
      match file.blockMap[idx]? with
      | none => ((.error .notFound,cache),pool)
      | some placement =>
        match tryStores bs net placement.nodes (.storeUnavailable placement.primary) pool with
        | (.error e,pool) => ((.error e,cache),pool)
        | (.ok (bytes,true),pool) => ((.ok bytes,cache.insert (file.cacheKey idx) bytes),pool)
        | (.ok (bytes,false),pool) => ((.ok bytes,cache),pool)

variable {n : NodeId} {pool : StoreClientPool}

/-- What `fetch_block` makes of the reply to a request. -/
def heard : Except Status Bytes → NodeAnswer
  | .ok bytes => .data bytes
  | .error status => if status.code = .notFound then .notFound else .failed

theorem readBlock_answers (net : Network) (n : NodeId) (pool : StoreClientPool) : (pool.readBlock net n).1 = match (pool.get net n).1 with
    | .error _ => .noClient
    | .ok channel => heard (net.read channel) := by
  unfold readBlock
  split
  next same => rw [same]
  next channel _ same =>
    rw [same]
    change _ = heard (net.read channel)
    cases net.read channel with
    | ok bytes => rfl
    | error status =>
      dsimp only [heard]
      split
      · rfl
      · rfl

/-- What another node answers is not changed by a request to this one. -/
theorem readBlock_other {m : NodeId} (other : n ≠ m) (before net : Network) :
    ((pool.readBlock before n).2.readBlock net m).1 = (pool.readBlock net m).1 := by
  have got : ((pool.readBlock before n).2.get net m).1 = (pool.get net m).1 := by
    unfold get
    rw [readBlock_clients other,readBlock_addrs]
    split
    · rfl
    · split
      · rfl
      · split
        · rfl
        · rfl
  rw [readBlock_answers,readBlock_answers,got]

theorem tryNodes_congr {bs : Nat} {first second : NodeId → NodeAnswer} (nodes : List NodeId) (same : ∀ node ∈ nodes, first node = second node)
    (e : DtmpfsError) : OpenFile.tryNodes bs first nodes e = OpenFile.tryNodes bs second nodes e := by
  induction nodes generalizing e with
  | nil => rfl
  | cons node rest ih =>
    have tail := ih (fun other member => same other (List.mem_cons_of_mem _ member)) (.storeUnavailable node)
    unfold OpenFile.tryNodes
    rw [same node List.mem_cons_self]
    split
    · rfl
    · rfl
    · exact tail
    · exact tail

/-- The replica loop answers as the nodes of the placement do when asked one by one. -/
theorem tryStores_answers (bs : Nat) (net : NodeId → Network) (nodes : List NodeId) (distinct : nodes.Nodup) (e : DtmpfsError)
    (pool : StoreClientPool) :
    (tryStores bs net nodes e pool).1 = OpenFile.tryNodes bs (fun node => (pool.readBlock (net node) node).1) nodes e := by
  induction nodes generalizing e pool with
  | nil => rfl
  | cons node rest ih =>
    obtain ⟨apart,distinct⟩ := List.nodup_cons.mp distinct
    have later : OpenFile.tryNodes bs (fun m => ((pool.readBlock (net node) node).2.readBlock (net m) m).1) rest (.storeUnavailable node) =
        OpenFile.tryNodes bs (fun m => (pool.readBlock (net m) m).1) rest (.storeUnavailable node) := by
      apply tryNodes_congr
      intro m member
      have other : node ≠ m := by
        rintro rfl
        exact apart member
      exact readBlock_other other _ _
    unfold tryStores OpenFile.tryNodes
    split
    next same => rw [same]
    next same => rw [same]
    next same =>
      rw [same] at later ⊢
      rw [ih distinct]
      exact later
    next same =>
      rw [same] at later ⊢
      rw [ih distinct]
      exact later

/-- It asks the first nodes of the placement, round after round. -/
theorem tryStores_rounds (bs : Nat) (net : NodeId → Network) (nodes : List NodeId) (e : DtmpfsError) (pool : StoreClientPool) :
    ∃ asked, asked <+: nodes ∧ (tryStores bs net nodes e pool).2 = asked.foldl (fun pool node => (pool.readBlock (net node) node).2) pool := by
  induction nodes generalizing e pool with
  | nil => exact ⟨[],List.prefix_rfl,rfl⟩
  | cons node rest ih =>
    have further (pool' : StoreClientPool) (round : (pool.readBlock (net node) node).2 = pool') :
        ∃ asked, asked <+: node::rest ∧ (tryStores bs net rest (.storeUnavailable node) pool').2 =
          asked.foldl (fun pool node => (pool.readBlock (net node) node).2) pool := by
      obtain ⟨asked,within,ended⟩ := ih (.storeUnavailable node) pool'
      refine ⟨node::asked,List.cons_prefix_cons.mpr ⟨rfl,within⟩,?_⟩
      rw [ended,List.foldl_cons,round]
    have here (pool' : StoreClientPool) (round : (pool.readBlock (net node) node).2 = pool') :
        ∃ asked, asked <+: node::rest ∧ pool' = asked.foldl (fun pool node => (pool.readBlock (net node) node).2) pool :=
      ⟨[node],List.cons_prefix_cons.mpr ⟨rfl,List.nil_prefix⟩,round.symm⟩
    unfold tryStores
    split
    next pool' same => exact here pool' (by rw [same])
    next pool' same => exact here pool' (by rw [same])
    next pool' same => exact further pool' (by rw [same])
    next pool' same => exact further pool' (by rw [same])

end StoreClientPool

open StoreClientPool

/-- The rounds of a fetch are steps of the client's routing. -/
theorem run_reads (net : NodeId → Network) (asked : List NodeId) (w : Routing) :
    ∃ v, Runs.run Routing.step (asked.map (fun node => .read node (net node))) w = some v ∧
      v.pool = asked.foldl (fun pool node => (pool.readBlock (net node) node).2) w.pool := by
  induction asked generalizing w with
  | nil => exact ⟨w,rfl,rfl⟩
  | cons node rest ih =>
    obtain ⟨v,ran,pool⟩ := ih {w with pool := (w.pool.readBlock (net node) node).2, moved := w.asked (net node) node}
    exact ⟨v,ran,pool⟩

/-- A fetch with channels is a fetch that is answered by each node of the placement as the
channel to it answers that the client has or opens when the fetch begins, whatever the
network does to the others; and what it does to the pool is to begin and to ask the first
nodes of the placement, one after the other. -/
theorem fetch_refines (bs : Nat) (net : NodeId → Network) (host : Host) (delivered : Bool) (file : OpenFile) (idx : BlockIdx)
    (cache : BlockCache) (w : Routing) (distinct : ∀ placement ∈ file.blockMap[idx]?, placement.nodes.Nodup) :
    let listing := if delivered then some (listNodes host w.metadata) else none
    let fetched := StoreClientPool.fetchBlock bs net listing file idx cache w.pool
    fetched.1 = OpenFile.fetchBlock bs (fun _ node => ((w.pool.lazyRefresh listing).readBlock (net node) node).1) file idx cache ∧
      (fetched.2 = w.pool ∨ ∃ asked v, asked <+: (file.blockMap[idx]?.map (·.nodes)).getD [] ∧
        Runs.run Routing.step (.beginFetch host delivered :: asked.map (fun node => .read node (net node))) w = some v ∧
        v.pool = fetched.2) := by
  intro listing
  obtain ⟨begun,started,pool⟩ : ∃ begun, Routing.step (.beginFetch host delivered) w = some begun ∧
      begun.pool = w.pool.lazyRefresh listing := ⟨_,rfl,rfl⟩
  unfold StoreClientPool.fetchBlock OpenFile.fetchBlock
  cases file.dirty[idx]? with
  | some buf => exact ⟨rfl,.inl rfl⟩
  | none =>
    cases cache[file.cacheKey idx]? with
    | some bytes => exact ⟨rfl,.inl rfl⟩
    | none =>
      cases placed : file.blockMap[idx]? with
      | none => exact ⟨rfl,.inr ⟨[],begun,List.nil_prefix,by rw [List.map_nil,Runs.run,started]; rfl,pool⟩⟩
      | some placement =>
        have answers := tryStores_answers bs net placement.nodes (distinct placement placed) (.storeUnavailable placement.primary)
          (w.pool.lazyRefresh listing)
        obtain ⟨asked,within,rounds⟩ := tryStores_rounds bs net placement.nodes (.storeUnavailable placement.primary)
          (w.pool.lazyRefresh listing)
        obtain ⟨v,ran,ended⟩ := run_reads net asked begun
        rw [pool,← rounds] at ended
        have whole : Runs.run Routing.step (.beginFetch host delivered :: asked.map (fun node => .read node (net node))) w = some v := by
          rw [Runs.run,started]
          exact ran
        dsimp only
        rw [← answers]
        generalize tryStores bs net placement.nodes (.storeUnavailable placement.primary) (w.pool.lazyRefresh listing) = tried at ended
        obtain ⟨e | ⟨bytes,_ | _⟩,pool'⟩ := tried
        · exact ⟨rfl,.inr ⟨asked,v,within,whole,ended⟩⟩
        · exact ⟨rfl,.inr ⟨asked,v,within,whole,ended⟩⟩
        · exact ⟨rfl,.inr ⟨asked,v,within,whole,ended⟩⟩

/-- The primary is gone and the replica holds the block. -/
def onlyAt (addr : String) : NodeId → Network := fun _ => .only addr

/-- The channel to the primary fails and is dropped, a channel to the replica is opened. -/
theorem fetch_refines_failover :
    let file : OpenFile := ⟨2,1,(∅ : Map BlockIdx BlockPlacement).insert 0 ⟨"m",["n"]⟩,∅,1,0⟩
    let w : Routing := {Routing.new 0 2 with pool := ⟨(∅ : Map NodeId String).insert "m" "http://a",
      ((∅ : Map NodeId String).insert "m" "http://a").insert "n" "http://b"⟩}
    let fetched := StoreClientPool.fetchBlock 1 (onlyAt "http://b") none file 0 ∅ w.pool
    fetched.2.clients.toList = [("n","http://b")] ∧ fetched.1.1.toOption = some [7] ∧
      fetched.1 = OpenFile.fetchBlock 1 (fun _ node => ((w.pool.lazyRefresh none).readBlock (onlyAt "http://b" node) node).1) file 0 ∅ := by
  intro file w fetched
  have distinct : ∀ placement ∈ file.blockMap[(0 : BlockIdx)]?, placement.nodes.Nodup := by decide
  exact ⟨by decide,by decide,(fetch_refines 1 (onlyAt "http://b") Host.still false file 0 ∅ w distinct).1⟩

end Dtmpfs
