import FlatNtuple.Branch.Row
import FlatNtuple.Proofs.Binary.Order
import FlatNtuple.Proofs.Dictionary
import FlatNtuple.Proofs.Json.Reading
/-!
# Rows survive being written and read

A document does not say of what kind a value is, so an integer is read back with the narrowest kind that holds it
(`Value.narrowest`).  Truth values are no numbers, and floats are written with a point or an exponent, so neither is
mistaken for an integer (`Value.exists_json`).  What is read back is written in the same way again (`Row.read_document`).
-/
namespace FlatNtuple

open Json

namespace Value

/-- A natural number of 64 bits with the narrowest kind that holds it. -/
def ofNatural (n : ℕ) : Value :=
  if n ≤ 2 ^ 31 - 1 then .int (Int32.ofNat n)
  else if n ≤ 2 ^ 32 - 1 then .uint (UInt32.ofNat n)
  else .ulong (UInt64.ofNat n)

/-- What a value is after it has been written and read: the same, but for the kind of integers without a sign. -/
def narrowest : Value → Value
  | uint n => ofNatural n.toNat
  | ulong n => ofNatural n.toNat
  | v => v

/-- The integer that a value is, if it is one. -/
def integer? : Value → Option ℤ
  | int i => some i.toInt
  | uint n => some n.toNat
  | ulong n => some n.toNat
  | _ => none

/-- A number of 32 bits is read back as itself.  The reader of numbers is quick and not exact, so that this does not
follow from the digits that are written. -/
def ReadsBack (x : Float32) : Prop := (Json.read (documentLayout.float32 x)).bind Decoder.float32 = some x

/-- What is asked of a value that is to survive: a float is finite and is read back. -/
def Survives (v : Value) : Prop := ∀ x, v = .float x → x.isFinite = true ∧ ReadsBack x

variable {v : Value}

/-! ## Integers -/

theorem integer?_ofNatural {n : ℕ} (hn : n < 2 ^ 64) : (ofNatural n).integer? = some (n : ℤ) := by
  unfold ofNatural
  split
  · rename_i h
    rw [integer?, Int32.toInt_ofNat_of_lt (by omega)]
  · split
    · rename_i h
      rw [integer?, UInt32.toNat_ofNat_of_lt' (by rw [UInt32.size]; omega)]
    · rw [integer?, UInt64.toNat_ofNat_of_lt' (by rw [UInt64.size]; omega)]

theorem integer?_narrowest (v : Value) : v.narrowest.integer? = v.integer? := by
  cases v with
  | uint n => exact integer?_ofNatural (n.toNat_lt.trans (by decide))
  | ulong n => exact integer?_ofNatural n.toNat_lt
  | float | bool | int => rfl

/-- Of an integer only the value counts, as a number and as a document. -/
theorem document_of_integer? {i : ℤ} (h : v.integer? = some i) :
    v.document = toString i ∧ v.toFloat = Binary.ofInt i := by
  cases v with
  | float | bool => cases h
  | int | uint | ulong => cases h; exact ⟨rfl, rfl⟩

theorem narrowest_of_integer? (h : v.integer? = none) : v.narrowest = v := by
  cases v with
  | float | bool => rfl
  | int | uint | ulong => cases h

theorem document_narrowest (v : Value) : v.narrowest.document = v.document ∧ v.narrowest.toFloat = v.toFloat := by
  cases hv : v.integer? with
  | none => rw [narrowest_of_integer? hv]; exact ⟨rfl, rfl⟩
  | some i =>
    obtain ⟨hdocument, hfloat⟩ := document_of_integer? hv
    obtain ⟨hdocument', hfloat'⟩ := document_of_integer? ((integer?_narrowest v).trans hv)
    exact ⟨hdocument'.trans hdocument.symm, hfloat'.trans hfloat.symm⟩

theorem decode_natural {n : ℕ} (hn : n < 2 ^ 64) : decode (.integer n) = some (ofNatural n) := by
  have hleast : Int32.minValue.toInt = -2 ^ 31 := rfl
  have hgreatest : Int32.maxValue.toInt = 2 ^ 31 - 1 := rfl
  have hsize : (UInt32.size : ℤ) = 2 ^ 32 := rfl
  have hsize' : (UInt64.size : ℤ) = 2 ^ 64 := rfl
  rw [decode, hleast, hgreatest, hsize, hsize', ofNatural, Int.toNat_natCast]
  by_cases hint : n ≤ 2 ^ 31 - 1
  · rw [if_pos (by omega), if_pos hint]
    rfl
  · rw [if_neg (by omega), if_neg hint]
    by_cases huint : n ≤ 2 ^ 32 - 1
    · rw [if_pos (by omega), if_pos huint]
    · rw [if_neg (by omega), if_pos (by omega), if_neg huint]

theorem decode_int (i : Int32) : decode (.integer i.toInt) = some (.int i) := by
  rw [decode, if_pos ⟨i.minValue_le_toInt, i.toInt_le⟩, Int32.ofInt_toInt]

theorem decode_of_integer? {i : ℤ} (h : v.integer? = some i) : decode (.integer i) = some v.narrowest := by
  cases v with
  | float | bool => cases h
  | int i => cases h; exact decode_int i
  | uint n => cases h; exact decode_natural (n.toNat_lt.trans (by decide))
  | ulong n => cases h; exact decode_natural n.toNat_lt

theorem integer?_mem {i : ℤ} (h : v.integer? = some i) : leastInteger ≤ i ∧ i ≤ greatestInteger := by
  have hleast : leastInteger = -2 ^ 63 := rfl
  have hgreatest : greatestInteger = 2 ^ 64 - 1 := rfl
  rw [hleast, hgreatest]
  cases v with
  | float | bool => cases h
  | int i =>
    cases h
    have hlow := i.le_toInt
    have hhigh := i.toInt_lt
    omega
  | uint n =>
    cases h
    have hhigh := n.toNat_lt
    omega
  | ulong n =>
    cases h
    have hhigh := n.toNat_lt
    omega

/-! ## Values -/

/-- Whether a number is read back is up to the reader of numerals. -/
theorem readsBack_iff {x : Float32} (negative : Bool) {n : Numeral} (hn : n.Proper) (hne : n.whole ≠ [])
    (hhead : n.whole = ['0'] ∨ n.whole.head? ≠ some '0') (hwhole : n.isWhole = false)
    (htext : (documentLayout.float32 x).toList = (if negative then ['-'] else []) ++ n.chars) :
    ReadsBack x ↔ Decoder.float32 (ofNumeral negative n) = some x := by
  have hreads := written_numeral negative hn hne hhead [] nofun
  have hwithin : (ofNumeral negative n).within deepest = ofNumeral negative n := by
    obtain ⟨y, hy⟩ | hnone := ofNumeral_eq hwhole negative
    · rw [hy]
      rfl
    · rw [hnone]
      rfl
  rw [← htext, List.append_nil] at hreads
  rw [ReadsBack, read_eq hreads, hwithin, Option.bind_some]

theorem exists_json_float {x : Float32} (hfinite : x.isFinite = true) (hread : ReadsBack x) :
    ∃ y, Written (float x).document.toList (.real y) ∧ Binary.narrow y = x := by
  obtain ⟨s, m, e, hx, hc⟩ := Binary.exists_of_isFinite_float32 hfinite
  have hdocument : (float x).document = documentLayout.write Binary.binary32 (.finite s m e) := by
    rw [← hx]
    exact if_pos hfinite
  have hlayout : documentLayout.float32 x = documentLayout.write Binary.binary32 (.finite s m e) := hx ▸ rfl
  obtain ⟨n, hproper, hne, hwhole, htext, hhead, -⟩ :=
    Decimal.exists_numeral_write (l := documentLayout) rfl (by decide) s hc
  have hvalue := (readsBack_iff s hproper hne hhead hwhole (hlayout ▸ htext)).1 hread
  obtain ⟨y, hy⟩ | hnone := ofNumeral_eq hwhole s
  · rw [hy] at hvalue
    refine ⟨y, ?_, Option.some.inj hvalue⟩
    rw [hdocument, htext, ← hy]
    exact written_numeral s hproper hne hhead
  · rw [hnone] at hvalue
    cases hvalue

/-- **A value is read back with the narrowest kind.** -/
theorem exists_json (hv : v.Survives) : ∃ j, Written v.document.toList j ∧ decode j = some v.narrowest ∧
    ∀ levels, j.within levels = j := by
  cases hinteger : v.integer? with
  | some i =>
    obtain ⟨hlow, hhigh⟩ := integer?_mem hinteger
    refine ⟨.integer i, ?_, decode_of_integer? hinteger, fun levels => by cases levels <;> rfl⟩
    rw [(document_of_integer? hinteger).1]
    exact written_integer hlow hhigh
  | none =>
    cases v with
    | float x =>
      obtain ⟨y, hwritten, rfl⟩ := exists_json_float (hv x rfl).1 (hv x rfl).2
      exact ⟨.real y, hwritten, rfl, fun levels => by cases levels <;> rfl⟩
    | bool b =>
      cases b with
      | false => exact ⟨.bool false, fun rest _ => reads_false rest, rfl, fun levels => by cases levels <;> rfl⟩
      | true => exact ⟨.bool true, fun rest _ => reads_true rest, rfl, fun levels => by cases levels <;> rfl⟩
    | int | uint | ulong => cases hinteger

end Value

/-! ## Rows -/

namespace Row

/-- The entries of a row as they are read back. -/
def narrowed (l : List (String × Value)) : List (String × Value) := l.map fun e => (e.1, e.2.narrowest)

/-- The members of a document are those of a row, but for the kinds. -/
structure Members (ms : List (String × Json)) (l : List (String × Value)) : Prop where
  decode : ms.mapM (fun m => (Value.decode m.2).map fun v => (m.1, v)) = some (narrowed l)
  within : ∀ levels, membersWithin levels ms = ms

theorem members_nil : Members [] [] := ⟨rfl, fun _ => rfl⟩

theorem Members.cons {ms : List (String × Json)} {l : List (String × Value)} (h : Members ms l) {j : Json} {v : Value}
    (hj : Value.decode j = some v.narrowest) (hwithin : ∀ levels, j.within levels = j) (name : String) :
    Members ((name, j) :: ms) ((name, v) :: l) where
  decode := by
    rw [List.mapM_cons, h.decode, hj]
    rfl
  within levels := by rw [membersWithin, hwithin, h.within]

/-- **The members of a row are read back.** -/
theorem exists_members : ∀ l : List (String × Value), l ≠ [] → (∀ e ∈ l, e.2.Survives) →
    ∃ ms, Members ms l ∧
      ∀ rest, ReadsMembers ((members l).toList ++ '}' :: rest) (ms.map fun m => (some m.1, m.2)) rest
  | [], hne, _ => absurd rfl hne
  | [(name, v)], _, hl => by
    obtain ⟨j, hwritten, hdecode, hwithin⟩ := Value.exists_json (hl _ List.mem_cons_self)
    refine ⟨[(name, j)], members_nil.cons hdecode hwithin name, fun rest => ?_⟩
    have htext : (members [(name, v)]).toList ++ '}' :: rest =
        (quote name).toList ++ ':' :: (v.document.toList ++ '}' :: rest) := by simp [members]
    rw [htext]
    exact readsMembers_cons name hwritten (.brace rest)
  | (name, v) :: e :: l, _, hl => by
    obtain ⟨j, hwritten, hdecode, hwithin⟩ := Value.exists_json (hl _ List.mem_cons_self)
    obtain ⟨ms, hms, hread⟩ := exists_members (e :: l) (List.cons_ne_nil e l) (List.forall_mem_cons.1 hl).2
    refine ⟨(name, j) :: ms, hms.cons hdecode hwithin name, fun rest => ?_⟩
    have htext : (members ((name, v) :: e :: l)).toList ++ '}' :: rest =
        (quote name).toList ++ ':' :: (v.document.toList ++ ',' :: ((members (e :: l)).toList ++ '}' :: rest)) := by
      simp [members]
    rw [htext]
    exact readsMembers_cons name hwritten (.comma (hread rest))

/-- Where there are members, the first one starts with a quote. -/
theorem exists_quote : ∀ l : List (String × Value), l ≠ [] → ∃ cs, (members l).toList = '"' :: cs
  | [], hne => absurd rfl hne
  | [(name, v)], _ => ⟨_, by simp [members, quote]; rfl⟩
  | (name, v) :: e :: l, _ => ⟨_, by simp [members, quote]; rfl⟩

theorem members_cons (name : String) (v : Value) {l : List (String × Value)} (hne : l ≠ []) :
    members ((name, v) :: l) = quote name ++ ":" ++ v.document ++ "," ++ members l := by
  cases l with
  | nil => exact absurd rfl hne
  | cons e l => rfl

theorem members_narrowed (l : List (String × Value)) : members (narrowed l) = members l := by
  induction l with
  | nil => rfl
  | cons e l ih =>
    obtain ⟨name, v⟩ := e
    change members ((name, v.narrowest) :: narrowed l) = _
    by_cases hl : l = []
    · subst hl
      change quote name ++ ":" ++ v.narrowest.document = quote name ++ ":" ++ v.document
      rw [v.document_narrowest.1]
    · rw [members_cons name _ (by simpa [narrowed] using hl), members_cons name v hl, ih, v.document_narrowest.1]

/-- The document of a row is an object of its members. -/
theorem read_document_members (r : Row) (hr : ∀ e ∈ r.entries, e.2.Survives) :
    ∃ ms, Members ms r.entries ∧ Json.read r.document = some (.object ms) := by
  have htext : r.document.toList = '{' :: ((members r.entries).toList ++ ['}']) := by simp [document]
  by_cases hne : r.entries = []
  · rw [hne] at htext ⊢
    refine ⟨[], members_nil, ?_⟩
    rw [read_eq (htext ▸ reads_object_nil [])]
    rfl
  · obtain ⟨ms, hms, hread⟩ := exists_members r.entries hne hr
    obtain ⟨cs, hquote⟩ := exists_quote r.entries hne
    refine ⟨ms, hms, ?_⟩
    have hmembers := hread []
    rw [hquote, List.cons_append] at hmembers
    have hobject : Reads r.document.toList (.object ms) [] := by
      rw [htext, hquote, ← ofMembers_some]
      exact reads_object hmembers
    rw [read_eq hobject, deepest, within, hms.within]

/-- **A row survives being written and read.**  If its floats are finite and are read back by themselves, it is read
back with the same names in the same order, each value with the narrowest kind: the same truth values, floats and signed
integers, and integers without a sign as signed ones where they fit.  So every value is the same as an integer and as a
number, and the row that is read is written in the same way. -/
theorem read_document (r : Row) (hr : ∀ e ∈ r.entries, ∀ x, e.2 = .float x → x.isFinite = true ∧ Value.ReadsBack x) :
    ∃ r' : Row, Row.read r.document = some r' ∧ r'.entries = r.entries.map (fun e => (e.1, e.2.narrowest)) ∧
      (∀ name, (r'.get? name).bind Value.integer? = (r.get? name).bind Value.integer?) ∧
      (∀ name, (r'.get? name).map Value.toFloat = (r.get? name).map Value.toFloat) ∧
      r'.document = r.document := by
  obtain ⟨ms, hms, hread⟩ := read_document_members r hr
  have hkeys : ((narrowed r.entries).map Prod.fst).Nodup := by
    have hsame : (narrowed r.entries).map Prod.fst = r.entries.map Prod.fst := by simp [narrowed]
    rw [hsame]
    exact r.nodup_keys
  have hentries := OrderedMap.entries_ofList hkeys
  have hget (name : String) : (OrderedMap.ofList (narrowed r.entries)).get? name = (r.get? name).map Value.narrowest := by
    rw [OrderedMap.get?, hentries, narrowed, lookup_map_snd, OrderedMap.get?]
  refine ⟨.ofList (narrowed r.entries), ?_, hentries, fun name => ?_, fun name => ?_, ?_⟩
  · rw [Row.read, hread, Option.bind_some, Row.decode, Decoder.dictionary, hms.decode]
    rfl
  · rw [hget]
    cases r.get? name with
    | none => rfl
    | some v => exact v.integer?_narrowest
  · rw [hget]
    cases r.get? name with
    | none => rfl
    | some v => exact congrArg some v.document_narrowest.2
  · rw [document, hentries, members_narrowed, document]

/-- Integers without a sign become signed ones up to the greatest of these, and a number with a sign and an exponent and
one behind a name with a quote and a line break are read back. -/
theorem read_document_kinds :
    let small : Float32 := Binary.narrow (-1.5e-42)
    let tenth : Float32 := Binary.narrow 0.1
    let r : Row := ⟨[("lumi", .uint 2147483647), ("run", .uint 2147483648), ("evt", .ulong 4294967295),
      ("seed", .ulong 18446744073709551615), ("w", .float small), ("\"pt\"\n", .float tenth), ("ok", .bool true),
      ("q", .int (-1))], by decide⟩
    ∃ r' : Row, Row.read r.document = some r' ∧
      r'.entries = [("lumi", .int 2147483647), ("run", .uint 2147483648), ("evt", .uint 4294967295),
        ("seed", .ulong 18446744073709551615), ("w", .float small), ("\"pt\"\n", .float tenth), ("ok", .bool true),
        ("q", .int (-1))] ∧
      r'.document = r.document := by
  intro small tenth r
  have hsmall : Value.ReadsBack small := by
    refine (Value.readsBack_iff true (n := ⟨['1'], ['.', '5'], ['e', '-', '4', '2']⟩) ⟨?_, ?_, ?_⟩
      (List.cons_ne_nil _ _) (.inr (by simp)) rfl (by decide +kernel)).2 (by decide +kernel)
    · simp
    · exact .inr ⟨['5'], rfl, by simp, by simp⟩
    · exact .inr ⟨'e', ['-'], ['4', '2'], rfl, rfl, by simp [Numeral.isSign], by simp, by simp, by simp⟩
  have htenth : Value.ReadsBack tenth := by
    refine (Value.readsBack_iff false (n := ⟨['0'], ['.', '1'], []⟩) ⟨?_, ?_, .inl rfl⟩
      (List.cons_ne_nil _ _) (.inl rfl) rfl (by decide +kernel)).2 (by decide +kernel)
    · simp
    · exact .inr ⟨['1'], rfl, by simp, by simp⟩
  have hsurvives : ∀ e ∈ r.entries, ∀ x, e.2 = .float x → x.isFinite = true ∧ Value.ReadsBack x := by
    simp only [r, List.forall_mem_cons, List.not_mem_nil, false_imp_iff, implies_true, and_true, reduceCtorEq, true_and]
    constructor
    · rintro _ ⟨⟩
      exact ⟨by decide +kernel, hsmall⟩
    · rintro _ ⟨⟩
      exact ⟨by decide +kernel, htenth⟩
  obtain ⟨r', hread, hentries, -, -, hdocument⟩ := read_document r hsurvives
  exact ⟨r', hread, hentries, hdocument⟩

end Row
end FlatNtuple
