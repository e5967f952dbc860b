import Mathlib
import FlatNtuple.Expr.Scanner
/-!
# Texts and their bytes

The bytes of a text, character by character.  A class of ASCII characters can be told from the bytes alone: an ASCII
character is one byte, its number, and no byte of any other character is below 128 (`exists_utf8EncodeChar`).  A piece
of a text is found again between the byte positions at which it begins and ends (`slice?_append`).
-/
namespace FlatNtuple

/-! ## Lengths -/

theorem byteLength_cons (c : Char) (cs : List Char) : byteLength (c :: cs) = c.utf8Size + byteLength cs := by
  have hshift : ∀ (ds : List Char) (n : Nat), ds.foldl (fun n d => n + d.utf8Size) n = n + byteLength ds := by
    intro ds
    induction ds with
    | nil => exact fun n => rfl
    | cons d ds ih =>
      intro n
      rw [byteLength, List.foldl_cons, List.foldl_cons, ih, ih (0 + _)]
      omega
  rw [byteLength, List.foldl_cons, hshift, Nat.zero_add]

theorem byteLength_append (cs ds : List Char) : byteLength (cs ++ ds) = byteLength cs + byteLength ds := by
  induction cs with
  | nil => exact (Nat.zero_add _).symm
  | cons c cs ih => rw [List.cons_append, byteLength_cons, byteLength_cons, ih, Nat.add_assoc]

theorem byteLength_eq (cs : List Char) : byteLength cs = (String.ofList cs).utf8ByteSize := by
  induction cs with
  | nil => rfl
  | cons c cs ih =>
    have hcons : String.ofList (c :: cs) = String.singleton c ++ String.ofList cs := by
      rw [String.singleton_eq_ofList, ← String.ofList_append]
      rfl
    rw [byteLength_cons, ih, hcons, String.utf8ByteSize_append, String.utf8ByteSize_singleton]

theorem utf8ByteSize_eq (text : String) : text.utf8ByteSize = byteLength text.toList := by
  rw [byteLength_eq, String.ofList_toList]

theorem byteLength_pos {cs : List Char} (h : cs ≠ []) : 0 < byteLength cs := by
  obtain ⟨c, t, rfl⟩ := List.exists_cons_of_ne_nil h
  rw [byteLength_cons]
  exact Nat.add_pos_left c.utf8Size_pos _

/-! ## Bytes -/

def utf8 (cs : List Char) : List UInt8 := cs.flatMap String.utf8EncodeChar

theorem utf8_cons (c : Char) (cs : List Char) : utf8 (c :: cs) = String.utf8EncodeChar c ++ utf8 cs :=
  List.flatMap_cons

theorem utf8_append (cs ds : List Char) : utf8 (cs ++ ds) = utf8 cs ++ utf8 ds := List.flatMap_append

theorem length_utf8 (cs : List Char) : (utf8 cs).length = byteLength cs := by
  induction cs with
  | nil => rfl
  | cons c cs ih => rw [utf8_cons, List.length_append, String.length_utf8EncodeChar, ih, byteLength_cons]

theorem toList_toUTF8 (text : String) : text.toUTF8.data.toList = utf8 text.toList := by
  rw [String.toUTF8_eq_toByteArray, ← String.utf8Encode_toList, List.utf8Encode, List.data_toByteArray]
  rfl

/-- The byte belongs to no ASCII character. -/
def High (b : UInt8) : Prop := 128 ≤ (Char.ofUInt8 b).toNat

theorem toNat_ofUInt8 (b : UInt8) : (Char.ofUInt8 b).toNat = b.toNat := by
  simp [Char.ofUInt8, Char.toNat]

theorem high_ofNat {n : Nat} (hlow : 128 ≤ n) (hhigh : n < 256) : High (UInt8.ofNat n) := by
  rw [High, toNat_ofUInt8, UInt8.toNat_ofNat', Nat.mod_eq_of_lt hhigh]
  exact hlow

/-- An ASCII character is a byte of its own, and in any other character no byte is the one of an ASCII character. -/
theorem exists_utf8EncodeChar (c : Char) : ∃ b bs, String.utf8EncodeChar c = b :: bs ∧
    (c.toNat < 128 → Char.ofUInt8 b = c ∧ bs = []) ∧ (128 ≤ c.toNat → High b) ∧ ∀ x ∈ bs, High x := by
  have hcontinued (n : Nat) : High (UInt8.ofNat (n % 0x40 + 0x80)) := high_ofNat (by omega) (by omega)
  by_cases hascii : c.toNat < 128
  · refine ⟨UInt8.ofNat c.toNat, [], ?_, fun _ => ⟨?_, rfl⟩, fun h => absurd hascii (by omega), nofun⟩
    · rw [String.utf8EncodeChar, if_pos]
      · rfl
      · exact Nat.le_of_lt_succ hascii
    · apply Char.toNat_inj.1
      rw [toNat_ofUInt8, UInt8.toNat_ofNat', Nat.mod_eq_of_lt (by omega)]
  · have hlead {m k : Nat} (hk : 0xc0 ≤ k) (hsum : m + k ≤ 0x100) (hm : 0 < m) (v : Nat) : High (UInt8.ofNat (v % m + k)) :=
      high_ofNat (by omega) (by have := Nat.mod_lt v hm; omega)
    have hgt : ¬ c.val.toNat ≤ 0x7f := fun h => hascii (Nat.lt_succ_of_le h)
    rw [String.utf8EncodeChar, if_neg hgt]
    split
    · exact ⟨_, _, rfl, fun h => absurd h hascii, fun _ => hlead (by decide) (by decide) (by decide) _,
        List.forall_mem_singleton.2 (hcontinued _)⟩
    · split
      · exact ⟨_, _, rfl, fun h => absurd h hascii, fun _ => hlead (by decide) (by decide) (by decide) _,
          List.forall_mem_cons.2 ⟨hcontinued _, List.forall_mem_singleton.2 (hcontinued _)⟩⟩
      · exact ⟨_, _, rfl, fun h => absurd h hascii, fun _ => hlead (by decide) (by decide) (by decide) _,
          List.forall_mem_cons.2 ⟨hcontinued _, List.forall_mem_cons.2 ⟨hcontinued _,
            List.forall_mem_singleton.2 (hcontinued _)⟩⟩⟩

theorem utf8Size_of_ascii {c : Char} (hc : c.toNat < 128) : c.utf8Size = 1 := by
  obtain ⟨b, bs, hbytes, hascii, -⟩ := exists_utf8EncodeChar c
  rw [← String.length_utf8EncodeChar, hbytes, (hascii hc).2]
  rfl

theorem byteLength_of_ascii {front : List Char} (hfront : ∀ c ∈ front, c.toNat < 128) :
    byteLength front = front.length := by
  induction front with
  | nil => rfl
  | cons c front ih =>
    rw [List.forall_mem_cons] at hfront
    rw [byteLength_cons, utf8Size_of_ascii hfront.1, ih hfront.2, List.length_cons, Nat.add_comm]

theorem High.ne {b : UInt8} (hb : High b) {x : Char} (hx : x.toNat < 128) : Char.ofUInt8 b ≠ x := by
  rintro rfl
  exact absurd hx (Nat.not_lt.2 hb)

/-! ## Classes of ASCII characters -/

/-- All characters of the class are ASCII. -/
def AsciiClass (p : Char → Bool) : Prop := ∀ c, p c = true → c.toNat < 128

/-- The first byte of a character, as the character of its number. -/
def lead (c : Char) : Char := Char.ofUInt8 ((String.utf8EncodeChar c).headD 0)

theorem lead_of_ascii {c : Char} (h : c.toNat < 128) : lead c = c := by
  obtain ⟨b, bs, hbytes, hascii, -⟩ := exists_utf8EncodeChar c
  rw [lead, hbytes]
  exact (hascii h).1

theorem lead_of_not_ascii {c : Char} (h : 128 ≤ c.toNat) : 128 ≤ (lead c).toNat := by
  obtain ⟨b, bs, hbytes, -, hhigh, -⟩ := exists_utf8EncodeChar c
  rw [lead, hbytes]
  exact hhigh h

theorem AsciiClass.eq_false {p : Char → Bool} (hp : AsciiClass p) {c : Char} (h : 128 ≤ c.toNat) : p c = false := by
  by_contra hc
  have := hp c (Bool.not_eq_false _ ▸ hc)
  omega

theorem AsciiClass.lead {p : Char → Bool} (hp : AsciiClass p) (c : Char) : p (lead c) = p c := by
  rcases Nat.lt_or_ge c.toNat 128 with h | h
  · rw [lead_of_ascii h]
  · rw [hp.eq_false h, hp.eq_false (lead_of_not_ascii h)]

theorem asciiClass_eq {x : Char} (hx : x.toNat < 128) : AsciiClass (· = x) := by
  intro c hc
  rwa [of_decide_eq_true hc]

theorem AsciiClass.or {p q : Char → Bool} (hp : AsciiClass p) (hq : AsciiClass q) : AsciiClass fun c => p c || q c :=
  fun c hc => (Bool.or_eq_true_iff.1 hc).elim (hp c) (hq c)

theorem lead_eq_iff {c x : Char} (hx : x.toNat < 128) : lead c = x ↔ c = x := by
  have h := (asciiClass_eq hx).lead c
  simpa using h

theorem AsciiClass.any_lead {p : Char → Bool} (hp : AsciiClass p) (c : Option Char) : (c.map FlatNtuple.lead).any p = c.any p := by
  cases c with
  | none => rfl
  | some c => exact hp.lead c

/-- Bytes are skipped up to the character that is the first not to belong to the class. -/
theorem AsciiClass.takeWhile_utf8 {p : Char → Bool} (hp : AsciiClass p) (cs : List Char) :
    (utf8 cs).takeWhile (fun b => p (.ofUInt8 b)) = utf8 (cs.takeWhile p) := by
  induction cs with
  | nil => rfl
  | cons c cs ih =>
    obtain ⟨b, bs, hbytes, hascii, hhigh, -⟩ := exists_utf8EncodeChar c
    rw [utf8_cons, hbytes, List.cons_append]
    rcases Nat.lt_or_ge c.toNat 128 with h | h
    · obtain ⟨hb, rfl⟩ := hascii h
      by_cases hc : p c = true
      · rw [List.takeWhile_cons_of_pos (by rw [hb]; exact hc), List.takeWhile_cons_of_pos hc, utf8_cons, hbytes,
          List.nil_append, ih]
        rfl
      · rw [List.takeWhile_cons_of_neg (by rw [hb]; exact hc), List.takeWhile_cons_of_neg hc]
        rfl
    · have hc : ¬ p c = true := by simp [hp.eq_false h]
      have hb : ¬ p (.ofUInt8 b) = true := by simp [hp.eq_false (hhigh h)]
      rw [List.takeWhile_cons_of_neg (p := fun b => p (.ofUInt8 b)) hb, List.takeWhile_cons_of_neg hc]
      rfl

/-! ## Pieces -/

theorem exists_pos? {text : String} {n : Nat} (h : (⟨n⟩ : String.Pos.Raw).IsValid text) :
    ∃ p, text.pos? ⟨n⟩ = some p ∧ p.offset.byteIdx = n := by
  have hslice : (⟨n⟩ : String.Pos.Raw).isValidForSlice text.toSlice = true := by
    rw [String.Pos.Raw.isValidForSlice_eq_true_iff, String.Pos.Raw.isValidForSlice_toSlice_iff]
    exact h
  rw [String.pos?, String.Slice.pos?, dif_pos hslice]
  exact ⟨_, rfl, rfl⟩

/-- A position is inside no character where a piece of the text ends. -/
theorem isValid_byteLength {text : String} {pre post : List Char} (h : text.toList = pre ++ post) :
    (⟨byteLength pre⟩ : String.Pos.Raw).IsValid text := by
  rw [String.Pos.Raw.isValid_iff_exists_append]
  refine ⟨String.ofList pre, String.ofList post, ?_, ?_⟩
  · rw [← String.ofList_append, ← h, String.ofList_toList]
  · rw [byteLength_eq]
    rfl

/-- The bytes between two ends of pieces are those of the characters between them. -/
theorem take_drop_utf8 (pre mid post : List Char) :
    ((utf8 (pre ++ mid ++ post)).drop (byteLength pre)).take (byteLength (pre ++ mid) - byteLength pre) = utf8 mid := by
  rw [List.append_assoc, utf8_append, utf8_append, byteLength_append, ← length_utf8 pre, List.drop_left,
    Nat.add_sub_cancel_left, ← length_utf8, List.take_left]

theorem eq_of_utf8 {s t : String} (h : utf8 s.toList = utf8 t.toList) : s = t := by
  rw [← toList_toUTF8, ← toList_toUTF8] at h
  exact String.toByteArray_inj.1 (ByteArray.ext (Array.toList_inj.1 h))

/-- What stands between two pieces of a text is cut out at its ends. -/
theorem slice?_append {text : String} {pre mid post : List Char} (h : text.toList = pre ++ mid ++ post) :
    slice? text (byteLength pre) (byteLength (pre ++ mid)) = some (String.ofList mid) := by
  obtain ⟨first, hfirst, hoffset⟩ := exists_pos? (isValid_byteLength (h.trans (List.append_assoc ..)))
  obtain ⟨last, hlast, hoffset'⟩ := exists_pos? (isValid_byteLength h)
  have hle : byteLength pre ≤ byteLength (pre ++ mid) := by rw [byteLength_append]; omega
  have hpiece : String.extract first last = String.ofList mid := by
    apply eq_of_utf8
    have hbytes : utf8 (String.extract first last).toList =
        ((utf8 text.toList).drop (byteLength pre)).take (byteLength (pre ++ mid) - byteLength pre) := by
      rw [← toList_toUTF8, ← toList_toUTF8, String.toUTF8_eq_toByteArray, String.toByteArray_extract, hoffset, hoffset',
        ByteArray.data_extract, Array.toList_extract, List.extract_eq_take_drop]
      rfl
    rw [hbytes, h, take_drop_utf8, String.toList_ofList]
  simp only [slice?, hfirst, hlast, Option.bind_eq_bind, Option.bind_some, if_pos hle, hpiece]

end FlatNtuple
