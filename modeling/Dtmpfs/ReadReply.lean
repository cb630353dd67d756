import Dtmpfs.OpenFile

/-! What a read replies: how many bytes, and for a block whose copies answer differently,
whose bytes. -/
namespace Dtmpfs
open OrderedMap

namespace OpenFile

variable {bs : Nat} {answer : BlockIdx → NodeId → NodeAnswer} {file : OpenFile} {cache : BlockCache}

/-- A successful read stops at the end of the file exactly when it was not asked for
more: the loop does not look at the size. -/
theorem read_stops_iff (positive : 0 < bs) (off size : Nat) {bytes : Bytes} (done : (read bs answer file off size cache).1 = .ok bytes) :
    bytes.length = min size (file.sizeHint - off) ↔ size = 0 ∨ off + size ≤ file.sizeHint := by
  rw [read_length positive done]
  omega

/-- A file of one byte whose block has more. -/
def tailed : OpenFile := ⟨2,0,(∅ : Map BlockIdx BlockPlacement).insert 0 ⟨"n",[]⟩,∅,1,0⟩

theorem read_stops_iff_inside : ∃ bytes, (read 4 (fun _ _ => .data [7,8]) tailed 0 1 ∅).1 = .ok bytes ∧
    bytes.length = min 1 (tailed.sizeHint - 0) := by
  have done : (read 4 (fun _ _ => .data [7,8]) tailed 0 1 ∅).1 = .ok [7] := rfl
  exact ⟨[7],done,(read_stops_iff (by decide) 0 1 done).mpr (.inr (by decide))⟩

theorem read_past_end : ∃ bytes, (read 4 (fun _ _ => .data [7,8]) tailed 0 3 ∅).1 = .ok bytes ∧ bytes = [7,8,0] ∧
    bytes.length ≠ min 3 (tailed.sizeHint - 0) :=
  ⟨[7,8,0],rfl,rfl,by decide⟩

/-- Some node that comes before the first one with data answers that it has no block. -/
def Masked (ask : NodeId → NodeAnswer) (nodes : List NodeId) : Prop :=
  ∃ front node rest bytes, nodes = front ++ node::rest ∧ ask node = .data bytes ∧ (∀ n ∈ front, ∀ b, ask n ≠ .data b) ∧
    ∃ n ∈ front, ask n = .notFound

/-- The first copy there is comes back and is cached, and an error means that no node
has answered. -/
def FindsCopy (bs : Nat) (answer : BlockIdx → NodeId → NodeAnswer) (file : OpenFile) (idx : BlockIdx) (cache : BlockCache)
    (placement : BlockPlacement) : Prop :=
  (∀ front node rest bytes, placement.nodes = front ++ node::rest → answer idx node = .data bytes →
      (∀ n ∈ front, ∀ b, answer idx n ≠ .data b) →
      fetchBlock bs answer file idx cache = (.ok bytes,cache.insert (file.cacheKey idx) bytes)) ∧
    ∀ e, (fetchBlock bs answer file idx cache).1 = .error e → ∀ node ∈ placement.nodes,
      answer idx node ≠ .notFound ∧ ∀ bytes, answer idx node ≠ .data bytes

section Failover

variable {ask : NodeId → NodeAnswer} {idx : BlockIdx} {placement : BlockPlacement}

/-- Nodes that cannot be asked, and errors other than `NotFound`, are passed over. -/
theorem tryNodes_skip (bs : Nat) {front : List NodeId} (silent : ∀ n ∈ front, ask n ≠ .notFound ∧ ∀ bytes, ask n ≠ .data bytes)
    (rest : List NodeId) (lastErr : DtmpfsError) : ∃ e, tryNodes bs ask (front ++ rest) lastErr = tryNodes bs ask rest e := by
  induction front generalizing lastErr with
  | nil => exact ⟨lastErr,rfl⟩
  | cons node front ih =>
    obtain ⟨found,data⟩ := silent node List.mem_cons_self
    obtain ⟨e,skipped⟩ := ih (fun n member => silent n (List.mem_cons_of_mem _ member)) (.storeUnavailable node)
    refine ⟨e,?_⟩
    rw [← skipped]
    simp only [List.cons_append,tryNodes]
    cases answered : ask node with
    | data bytes => exact absurd answered (data bytes)
    | notFound => exact absurd answered found
    | noClient => rfl
    | failed => rfl

theorem tryNodes_failed {nodes : List NodeId} {lastErr e : DtmpfsError} (failed : tryNodes bs ask nodes lastErr = .error e)
    (node : NodeId) (listed : node ∈ nodes) : ask node ≠ .notFound ∧ ∀ bytes, ask node ≠ .data bytes := by
  induction nodes generalizing lastErr with
  | nil => cases listed
  | cons first rest ih =>
    unfold tryNodes at failed
    cases answered : ask first with
    | data bytes =>
      rw [answered] at failed
      cases failed
    | notFound =>
      rw [answered] at failed
      cases failed
    | noClient | failed =>
      rw [answered] at failed
      rcases List.mem_cons.mp listed with rfl | later
      · rw [answered]
        exact ⟨nofun,nofun⟩
      · exact ih failed later

/-- The first node that knows anything about the block. -/
theorem first_word {front : List NodeId} (some : ∃ n ∈ front, ask n = .notFound) (none : ∀ n ∈ front, ∀ b, ask n ≠ .data b) :
    ∃ before n after, front = before ++ n::after ∧ ask n = .notFound ∧
      ∀ m ∈ before, ask m ≠ .notFound ∧ ∀ b, ask m ≠ .data b := by
  induction front with
  | nil =>
    obtain ⟨n,member,_⟩ := some
    cases member
  | cons first rest ih =>
    by_cases here : ask first = .notFound
    · exact ⟨[],first,rest,rfl,here,nofun⟩
    · have later : ∃ n ∈ rest, ask n = .notFound := by
        obtain ⟨n,member,told⟩ := some
        rcases List.mem_cons.mp member with rfl | member
        · exact absurd told here
        · exact ⟨n,member,told⟩
      obtain ⟨before,n,after,split,told,silent⟩ := ih later (fun n member => none n (List.mem_cons_of_mem _ member))
      refine ⟨first::before,n,after,by rw [split]; rfl,told,?_⟩
      intro m member
      rcases List.mem_cons.mp member with rfl | member
      · exact ⟨here,none m List.mem_cons_self⟩
      · exact silent m member

theorem fetchBlock_asked (asks : file.asks idx cache = true) (placed : file.blockMap[idx]? = some placement) :
    fetchBlock bs answer file idx cache =
      match tryNodes bs (answer idx) placement.nodes (.storeUnavailable placement.primary) with
      | .error e => (.error e,cache)
      | .ok (bytes,true) => (.ok bytes,cache.insert (file.cacheKey idx) bytes)
      | .ok (bytes,false) => (.ok bytes,cache) := by
  obtain ⟨clean,uncached,_⟩ := (asks_iff file idx cache).mp asks
  unfold fetchBlock
  rewrite [clean,uncached,placed]
  rfl

/-- A block that is neither dirty nor cached is found, wherever there is a copy, exactly
when no node before the first copy answers `NotFound`. -/
theorem fetch_finds_iff (asks : file.asks idx cache = true) (placed : file.blockMap[idx]? = some placement) :
    FindsCopy bs answer file idx cache placement ↔ ¬ Masked (answer idx) placement.nodes := by
  have fetched := @fetchBlock_asked bs answer file cache idx placement asks placed
  constructor
  · intro finds masked
    obtain ⟨front,node,rest,bytes,split,told,none,hidden⟩ := masked
    have copy := finds.1 front node rest bytes split told none
    obtain ⟨before,n,after,front_split,missing,silent⟩ := first_word hidden none
    obtain ⟨e,skipped⟩ := tryNodes_skip bs silent (n::(after ++ node::rest)) (.storeUnavailable placement.primary)
    have order : placement.nodes = before ++ n::(after ++ node::rest) := by
      rw [split,front_split,List.append_assoc]
      rfl
    rw [fetched,order,skipped] at copy
    simp only [tryNodes,missing] at copy
    -- zeros come back, and the cache stays as it is
    have uncached := ((asks_iff file idx cache).mp asks).2.1
    have cached := congrArg (fun result : Except DtmpfsError Bytes × BlockCache => result.2[file.cacheKey idx]?) copy
    simp only [get_insert,if_true,uncached] at cached
    cases cached
  · intro unmasked
    refine ⟨?_,?_⟩
    · intro front node rest bytes split told none
      have silent : ∀ n ∈ front, answer idx n ≠ .notFound ∧ ∀ b, answer idx n ≠ .data b := by
        intro n member
        exact ⟨fun missing => unmasked ⟨front,node,rest,bytes,split,told,none,n,member,missing⟩,none n member⟩
      obtain ⟨e,skipped⟩ := tryNodes_skip bs silent (node::rest) (.storeUnavailable placement.primary)
      rw [fetched,split,skipped]
      simp only [tryNodes,told]
    · intro e failed node listed
      rw [fetched] at failed
      split at failed
      next e' asked => exact tryNodes_failed asked node listed
      next => cases failed
      next => cases failed

end Failover

/-- The primary cannot be reached and the replica answers. -/
theorem fetch_finds_iff_replica : ∃ file answer, fetchBlock 2 answer file 0 ∅ =
    (.ok [7,8],(∅ : BlockCache).insert (file.cacheKey 0) [7,8]) := by
  refine ⟨⟨2,0,(∅ : Map BlockIdx BlockPlacement).insert 0 ⟨"p",["r"]⟩,∅,2,0⟩,
    fun _ node => if node = "r" then .data [7,8] else .noClient,?_⟩
  refine ((fetch_finds_iff rfl rfl).mpr ?_).1 ["p"] "r" [] [7,8] rfl rfl ?_
  · intro masked
    obtain ⟨_,_,_,_,_,_,_,n,_,missing⟩ := masked
    revert missing
    dsimp only
    split <;> nofun
  · intro n member b
    rw [List.mem_singleton.mp member]
    nofun

/-- The primary has come back empty: zeros are read although the replica has the block. -/
theorem empty_primary_masks : ∃ file answer, answer "p" = .notFound ∧ answer "r" = .data [7,8] ∧
    fetchBlock 2 (fun _ => answer) file 0 ∅ = (.ok [0,0],∅) ∧ ¬ FindsCopy 2 (fun _ => answer) file 0 ∅ ⟨"p",["r"]⟩ := by
  refine ⟨⟨2,0,(∅ : Map BlockIdx BlockPlacement).insert 0 ⟨"p",["r"]⟩,∅,2,0⟩,
    fun node => if node = "r" then .data [7,8] else .notFound,rfl,rfl,rfl,?_⟩
  intro finds
  have copy := congrArg (·.1) (finds.1 ["p"] "r" [] [7,8] rfl rfl (by
    intro n member b
    rw [List.mem_singleton.mp member]
    nofun))
  cases copy

end OpenFile

end Dtmpfs
