import Mathlib.Tactic
import Mathlib.Data.List.GetD

/-! Flat files: a size and a byte at every offset, zero where nothing was written.
Patches overlay bytes and extend the size. A file is kept in blocks of `bs` bytes,
and a set of dirty blocks over a base file stands for the file they draft. -/
namespace FlatFile

@[ext]
structure Flat where
  size : Nat
  byte : Nat → UInt8

structure Patch where
  offset : Nat
  data : List UInt8
  extent : Nat

namespace Flat

def empty : Flat := ⟨0,fun _ => 0⟩

def apply (F : Flat) (p : Patch) : Flat where
  size := max F.size p.extent
  byte i := if p.offset ≤ i ∧ i < p.offset + p.data.length then p.data.getD (i - p.offset) 0 else F.byte i

def applyAll (F : Flat) (patches : List Patch) : Flat := patches.foldl apply F

theorem applyAll_concat (F : Flat) (patches : List Patch) (p : Patch) :
    F.applyAll (patches ++ [p]) = (F.applyAll patches).apply p := by
  simp [applyAll]

theorem byte_apply_apply (F : Flat) (offset extent extent' extent'' : Nat) (first second : List UInt8) :
    ((F.apply ⟨offset,first,extent⟩).apply ⟨offset + first.length,second,extent'⟩).byte =
      (F.apply ⟨offset,first ++ second,extent''⟩).byte := by
  funext i
  simp only [apply,List.length_append]
  by_cases low : offset + first.length ≤ i
  · by_cases high : i < offset + first.length + second.length
    · rw [if_pos ⟨low,high⟩,if_pos ⟨by omega,by omega⟩,List.getD_append_right _ _ _ _ (by omega)]
      congr 1
      omega
    · rw [if_neg (by omega),if_neg (by omega),if_neg (by omega)]
  · rw [if_neg (by omega)]
    by_cases inside : offset ≤ i
    · rw [if_pos ⟨inside,by omega⟩,if_pos ⟨inside,by omega⟩,List.getD_append _ _ _ _ (by omega)]
    · rw [if_neg (by omega),if_neg (by omega)]

theorem byte_apply_congr {F G : Flat} (bytes : F.byte = G.byte) (p : Patch) (extent : Nat) :
    (F.apply p).byte = (G.apply {p with extent := extent}).byte := by
  funext i
  simp only [apply,bytes]

theorem byte_apply_nil (F : Flat) (offset extent : Nat) : (F.apply ⟨offset,[],extent⟩).byte = F.byte := by
  funext i
  have outside : ¬ (offset ≤ i ∧ i < offset + ([] : List UInt8).length) := by
    simp only [List.length_nil]
    omega
  simp only [apply,if_neg outside]

theorem size_le_applyAll (F : Flat) (patches : List Patch) : F.size ≤ (F.applyAll patches).size := by
  induction patches generalizing F with
  | nil => exact Nat.le_refl _
  | cons p rest ih => exact Nat.le_trans (Nat.le_max_left _ _) (ih (F.apply p))

end Flat

variable {bs : Nat} {F G D : Flat} {idx : Nat} {block : List UInt8}

/-- `block` is the image of block `idx` of the file. -/
structure Shows (bs : Nat) (F : Flat) (idx : Nat) (block : List UInt8) : Prop where
  length : block.length = bs
  bytes : ∀ k < bs, block.getD k 0 = F.byte (idx * bs + k)

def Blank (bs : Nat) (F : Flat) (idx : Nat) : Prop := ∀ k < bs, F.byte (idx * bs + k) = 0

/-- The files have the same bytes in block `idx`. -/
def Agree (bs : Nat) (F G : Flat) (idx : Nat) : Prop := ∀ k < bs, F.byte (idx * bs + k) = G.byte (idx * bs + k)

theorem Blank.shows (blank : Blank bs F idx) : Shows bs F idx (List.replicate bs 0) := by
  refine ⟨List.length_replicate,?_⟩
  intro k small
  rw [blank k small,List.getD_replicate _ small]

theorem Shows.congr (shown : Shows bs F idx block) (agree : Agree bs F G idx) : Shows bs G idx block := by
  refine ⟨shown.length,?_⟩
  intro k small
  rw [shown.bytes k small,agree k small]

theorem Blank.congr (blank : Blank bs F idx) (agree : Agree bs F G idx) : Blank bs G idx := by
  intro k small
  rw [← agree k small,blank k small]

theorem Agree.refl (F : Flat) : Agree bs F F idx := fun _ _ => rfl

theorem agree_of_bytes (bytes : F.byte = G.byte) : Agree bs F G idx := fun k _ => by rw [bytes]

/-- `chunk` copied over the bytes from `start` on. -/
def splice (block : List UInt8) (start : Nat) (chunk : List UInt8) : List UInt8 :=
  block.take start ++ chunk ++ block.drop (start + chunk.length)

theorem splice_length {start : Nat} {chunk : List UInt8} (fits : start + chunk.length ≤ block.length) :
    (splice block start chunk).length = block.length := by
  simp only [splice,List.length_append,List.length_take,List.length_drop]
  omega

theorem splice_getElem? {start : Nat} {chunk : List UInt8} (fits : start + chunk.length ≤ block.length) (k : Nat) :
    (splice block start chunk)[k]? = if start ≤ k ∧ k < start + chunk.length then chunk[k - start]? else block[k]? := by
  have head : (block.take start).length = start := by
    rw [List.length_take]
    omega
  simp only [splice,List.append_assoc]
  by_cases low : start ≤ k
  · rw [List.getElem?_append_right (by omega),head]
    by_cases high : k < start + chunk.length
    · rw [if_pos ⟨low,high⟩,List.getElem?_append_left (by omega)]
    · rw [if_neg (by omega),List.getElem?_append_right (by omega),List.getElem?_drop]
      congr 1
      omega
  · rw [if_neg (by omega),List.getElem?_append_left (by omega),List.getElem?_take,if_pos (Nat.lt_of_not_le low)]

theorem splice_getD {start : Nat} {chunk : List UInt8} (fits : start + chunk.length ≤ block.length) (k : Nat) :
    (splice block start chunk).getD k 0 =
      if start ≤ k ∧ k < start + chunk.length then chunk.getD (k - start) 0 else block.getD k 0 := by
  simp only [List.getD_eq_getElem?_getD,splice_getElem? fits]
  split <;> rfl

theorem Shows.splice (shown : Shows bs F idx block) {start extent : Nat} {chunk : List UInt8}
    (fits : start + chunk.length ≤ bs) :
    Shows bs (F.apply ⟨idx * bs + start,chunk,extent⟩) idx (splice block start chunk) := by
  have inside : start + chunk.length ≤ block.length := shown.length ▸ fits
  refine ⟨(splice_length inside).trans shown.length,?_⟩
  intro k small
  rw [splice_getD inside]
  simp only [Flat.apply]
  by_cases hit : start ≤ k ∧ k < start + chunk.length
  · rw [if_pos hit,if_pos ⟨by omega,by omega⟩]
    congr 1
    omega
  · rw [if_neg hit,if_neg (by omega),shown.bytes k small]

/-- A chunk of a whole block shows the patch whatever was there before. -/
theorem shows_overwrite {extent : Nat} {chunk : List UInt8} (sized : block.length = bs) (whole : chunk.length = bs) :
    Shows bs (F.apply ⟨idx * bs + 0,chunk,extent⟩) idx (splice block 0 chunk) := by
  have inside : 0 + chunk.length ≤ block.length := by omega
  refine ⟨(splice_length inside).trans sized,?_⟩
  intro k small
  rw [splice_getD inside]
  simp only [Flat.apply]
  rw [if_pos ⟨by omega,by omega⟩,if_pos ⟨by omega,by omega⟩]
  congr 1
  omega

theorem agree_apply {start extent other : Nat} {chunk : List UInt8} (fits : start + chunk.length ≤ bs)
    (apart : other ≠ idx) : Agree bs F (F.apply ⟨idx * bs + start,chunk,extent⟩) other := by
  intro k small
  have outside : ¬ (idx * bs + start ≤ other * bs + k ∧ other * bs + k < idx * bs + start + chunk.length) := by
    intro inside
    rcases Nat.lt_or_gt_of_ne apart with below | above
    · have step : (other + 1) * bs ≤ idx * bs := Nat.mul_le_mul_right bs below
      rw [Nat.add_mul] at step
      omega
    · have step : (idx + 1) * bs ≤ other * bs := Nat.mul_le_mul_right bs above
      rw [Nat.add_mul] at step
      omega
  simp only [Flat.apply,if_neg outside]

/-- Dirty blocks over the base file `F` draft the file `D`. -/
structure Overlay (bs : Nat) (F D : Flat) (dirty : Nat → Option (List UInt8)) : Prop where
  dirtied : ∀ idx block, dirty idx = some block → Shows bs D idx block
  clean : ∀ idx, dirty idx = none → Agree bs F D idx

theorem Overlay.none (F : Flat) : Overlay bs F F (fun _ => .none) := ⟨nofun,fun _ _ => .refl F⟩

theorem Overlay.congr {dirty : Nat → Option (List UInt8)} (drafted : Overlay bs F D dirty) (bytes : D.byte = G.byte) :
    Overlay bs F G dirty where
  dirtied i block found := (drafted.dirtied i block found).congr (agree_of_bytes bytes)
  clean i clean := by
    intro k small
    rw [drafted.clean i clean k small,bytes]

/-- One chunk written into block `idx`, whose image before was `block`. -/
theorem Overlay.chunk {dirty dirty' : Nat → Option (List UInt8)} (drafted : Overlay bs F D dirty)
    {start extent : Nat} {chunk : List UInt8} (fits : start + chunk.length ≤ bs)
    (image : Shows bs (D.apply ⟨idx * bs + start,chunk,extent⟩) idx (FlatFile.splice block start chunk))
    (here : dirty' idx = some (FlatFile.splice block start chunk))
    (there : ∀ other, other ≠ idx → dirty' other = dirty other) :
    Overlay bs F (D.apply ⟨idx * bs + start,chunk,extent⟩) dirty' where
  dirtied i found block := by
    rcases Classical.em (i = idx) with same | apart
    · subst same
      rw [here] at block
      exact Option.some.inj block ▸ image
    · rw [there i apart] at block
      exact (drafted.dirtied i found block).congr (agree_apply fits apart)
  clean i clean := by
    have apart : i ≠ idx := by
      intro same
      rw [same,here] at clean
      cases clean
    rw [there i apart] at clean
    intro k small
    rw [drafted.clean i clean k small,agree_apply fits apart k small]

/-- The bytes of a file from `cur` on. -/
def Flat.slice (F : Flat) (cur size : Nat) : List UInt8 := (List.range size).map (fun k => F.byte (cur + k))

theorem Flat.length_slice (F : Flat) (cur size : Nat) : (F.slice cur size).length = size := by
  rw [slice,List.length_map,List.length_range]

theorem Flat.slice_add (F : Flat) (cur first second : Nat) :
    F.slice cur (first + second) = F.slice cur first ++ F.slice (cur + first) second := by
  simp only [Flat.slice,List.range_add,List.map_append,List.map_map]
  congr 2
  funext k
  simp [Nat.add_assoc]

/-- A stretch of one block, padded with zeros where the block is too short. -/
theorem Shows.stretch (shown : Shows bs F idx block) {start want : Nat} (fits : start + want ≤ bs) :
    (block.drop start).take want = F.slice (idx * bs + start) want := by
  refine List.ext_getElem ?_ ?_
  · simp only [List.length_take,List.length_drop,Flat.slice,List.length_map,List.length_range,shown.length]
    omega
  · intro k first second
    have small : k < want := by simpa [Flat.slice] using second
    have image := shown.bytes (start + k) (by omega)
    rw [List.getD_eq_getElem _ _ (by rw [shown.length]; omega)] at image
    simp only [List.getElem_take,List.getElem_drop,Flat.slice,List.getElem_map,List.getElem_range,image]
    congr 1
    omega

theorem Blank.stretch (blank : Blank bs F idx) {start want : Nat} (fits : start + want ≤ bs) :
    List.replicate want 0 = F.slice (idx * bs + start) want := by
  have image := blank.shows.stretch fits
  rw [← image]
  refine List.ext_getElem ?_ ?_
  · simp only [List.length_take,List.length_drop,List.length_replicate]
    omega
  · intro k first second
    simp

end FlatFile
