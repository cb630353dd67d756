import Mathlib.Tactic

/-! Lossy decoding of bytes as UTF-8. Where no character begins, one replacement character
stands for the longest stretch that begins one and breaks off, or for a single byte. -/
namespace LossyUtf8

def replacement : Char := '\uFFFD'

/-- The second byte of a character of three or four bytes. -/
def follows (lead second : UInt8) : Bool :=
  if lead = 0xE0 then 0xA0 ≤ second && second ≤ 0xBF
  else if 0xE1 ≤ lead ∧ lead ≤ 0xEC then 0x80 ≤ second && second ≤ 0xBF
  else if lead = 0xED then 0x80 ≤ second && second ≤ 0x9F
  else if 0xEE ≤ lead ∧ lead ≤ 0xEF then 0x80 ≤ second && second ≤ 0xBF
  else if lead = 0xF0 then 0x90 ≤ second && second ≤ 0xBF
  else if 0xF1 ≤ lead ∧ lead ≤ 0xF3 then 0x80 ≤ second && second ≤ 0xBF
  else if lead = 0xF4 then 0x80 ≤ second && second ≤ 0x8F
  else false

/-- How many bytes are replaced at once where no character begins. -/
def brokenLength : List UInt8 → Nat
  | lead::second::third::_ =>
    if follows lead second then if 0xF0 ≤ lead ∧ 0x80 ≤ third ∧ third ≤ 0xBF then 3 else 2
    else 1
  | [lead,second] => if follows lead second then 2 else 1
  | _ => 1

def decodeChars : Nat → List UInt8 → List Char
  | 0,_ => []
  | fuel + 1,bytes =>
    if bytes = [] then []
    else
      match bytes.toByteArray.utf8DecodeChar? 0 with
      | some c => c :: decodeChars fuel (bytes.drop c.utf8Size)
      | none => replacement :: decodeChars fuel (bytes.drop (brokenLength bytes))

/-- Every round takes a byte at least, so `bytes.length` rounds are enough. -/
def decode (bytes : List UInt8) : String := String.ofList (decodeChars bytes.length bytes)

def encode (s : String) : List UInt8 := s.toUTF8.data.toList

def Utf8 (bytes : List UInt8) : Prop := ∃ s, encode s = bytes

theorem encode_eq (s : String) : encode s = s.toList.flatMap String.utf8EncodeChar := by
  have bytes : s.toList.utf8Encode = s.toByteArray := String.utf8Encode_toList
  rw [encode,String.toUTF8_eq_toByteArray,← bytes]
  exact List.toList_data_toByteArray

theorem decodeChars_encoded (cs : List Char) {fuel : Nat} (enough : (cs.flatMap String.utf8EncodeChar).length ≤ fuel) :
    decodeChars fuel (cs.flatMap String.utf8EncodeChar) = cs := by
  induction cs generalizing fuel with
  | nil => cases fuel <;> rfl
  | cons c rest ih =>
    rw [List.flatMap_cons,List.length_append,String.length_utf8EncodeChar] at enough
    have size := c.utf8Size_pos
    obtain ⟨fuel,rfl⟩ : ∃ fewer, fuel = fewer + 1 := ⟨fuel - 1,by omega⟩
    have some_ : String.utf8EncodeChar c ++ rest.flatMap String.utf8EncodeChar ≠ [] := by
      intro none
      exact String.utf8EncodeChar_ne_nil (List.append_eq_nil_iff.mp none).1
    have first : (String.utf8EncodeChar c ++ rest.flatMap String.utf8EncodeChar).toByteArray.utf8DecodeChar? 0 = some c := by
      rw [List.toByteArray_append]
      exact ByteArray.utf8DecodeChar?_utf8EncodeChar_append
    rw [List.flatMap_cons,decodeChars,if_neg some_,first]
    dsimp only
    rw [List.drop_left' (String.length_utf8EncodeChar c),ih (by omega)]

/-- Decoding loses nothing of a string. -/
theorem decode_encode (s : String) : decode (encode s) = s := by
  rw [decode,encode_eq,decodeChars_encoded s.toList (Nat.le_refl _),String.ofList_toList]

/-- The bytes come back exactly if they are UTF-8. -/
theorem encode_decode_iff (bytes : List UInt8) : encode (decode bytes) = bytes ↔ Utf8 bytes := by
  constructor
  · intro same
    exact ⟨decode bytes,same⟩
  · intro ⟨s,same⟩
    rw [← same,decode_encode]

theorem decode_injective {first second : List UInt8} (valid : Utf8 first) (other : Utf8 second) (same : decode first = decode second) :
    first = second := by
  rw [← (encode_decode_iff first).mpr valid,same,(encode_decode_iff second).mpr other]

theorem decode_filled {bytes : List UInt8} (filled : bytes ≠ []) : decode bytes ≠ "" := by
  obtain ⟨first,rest,rfl⟩ := List.exists_cons_of_ne_nil filled
  intro empty
  have chars : decodeChars (first::rest).length (first::rest) = [] := by
    rw [← String.toList_ofList (l := decodeChars (first::rest).length (first::rest))]
    exact congrArg String.toList empty
  rw [List.length_cons,decodeChars,if_neg (List.cons_ne_nil first rest)] at chars
  split at chars <;> cases chars

example : decode [0xFF] = "�" ∧ decode [0xE2,0x82,0x41] = "�A" := by decide

end LossyUtf8
