import FlatNtuple.Json.Number
import FlatNtuple.Json.Quoted
/-!
# Reading documents

`Json.read` accepts a text that is one value between blanks.  The text has to be well formed throughout; what of it has
no value is unreadable, and so is an object with such a key, and what nests deeper than `deepest` levels.  Every reader
hands on a rest that is shorter than its input, which is why reading ends.
-/
namespace FlatNtuple
namespace Json

/-- What a reader leaves of its input. -/
abbrev Rest (cs : List Char) := { r : List Char // r.length < cs.length }

def deepest : Nat := 127

def isBlank (c : Char) : Bool := c = ' ' || c = '\n' || c = '\t' || c = '\r'

def skipBlanks (cs : List Char) : List Char := cs.dropWhile isBlank

theorem skipBlanks_length (cs : List Char) : (skipBlanks cs).length ≤ cs.length :=
  (List.dropWhile_sublist _).length_le

theorem length_lt_of_skipBlanks {cs r : List Char} {c : Char} (h : skipBlanks cs = c :: r) : r.length < cs.length := by
  have := skipBlanks_length cs
  rw [h, List.length_cons] at this
  omega

/-- A string, if it spells one. -/
def readString (cs : List Char) : Option (Option String × Rest cs) :=
  match hcs : skipBlanks cs with
  | '"' :: body =>
    match h : pieces body with
    | some (ps, r) => some ((spell ps).map String.ofList, ⟨r, by
        have := length_pieces h
        have := length_lt_of_skipBlanks hcs
        omega⟩)
    | none => none
  | _ => none

def ofString : Option String → Json
  | some s => .string s
  | none => .unreadable

/-- The object of some members, if all of their keys are strings. -/
def ofMembers (members : List (Option String × Json)) : Json :=
  match members.mapM fun (k, j) => k.map fun k => (k, j) with
  | some members => .object members
  | none => .unreadable

mutual

/-- A value behind blanks. -/
def readValue (cs : List Char) : Option (Json × Rest cs) :=
  match hcs : skipBlanks cs with
  | 'n' :: 'u' :: 'l' :: 'l' :: r => some (.null, ⟨r, by
      have := length_lt_of_skipBlanks hcs; simp only [List.length_cons] at this; omega⟩)
  | 't' :: 'r' :: 'u' :: 'e' :: r => some (.bool true, ⟨r, by
      have := length_lt_of_skipBlanks hcs; simp only [List.length_cons] at this; omega⟩)
  | 'f' :: 'a' :: 'l' :: 's' :: 'e' :: r => some (.bool false, ⟨r, by
      have := length_lt_of_skipBlanks hcs; simp only [List.length_cons] at this; omega⟩)
  | '"' :: _ => (readString cs).map fun (s, r) => (ofString s, r)
  | '[' :: r =>
    have hr := length_lt_of_skipBlanks hcs
    match he : skipBlanks r with
    | ']' :: r' => some (.array [], ⟨r', Nat.lt_trans (length_lt_of_skipBlanks he) hr⟩)
    | _ => (readItems r).map fun (vs, rest) => (.array vs, ⟨rest.1, Nat.lt_trans rest.2 hr⟩)
  | '{' :: r =>
    have hr := length_lt_of_skipBlanks hcs
    match he : skipBlanks r with
    | '}' :: r' => some (.object [], ⟨r', Nat.lt_trans (length_lt_of_skipBlanks he) hr⟩)
    | _ => (readMembers r).map fun (ms, rest) => (ofMembers ms, ⟨rest.1, Nat.lt_trans rest.2 hr⟩)
  | c :: r =>
    match h : readNumber (c :: r) with
    | some (j, rest) => some (j, ⟨rest, by
        have := length_readNumber h
        have := skipBlanks_length cs
        rw [hcs] at this
        omega⟩)
    | none => none
  | [] => none
termination_by (cs.length, 0)

/-- Elements up to the closing bracket. -/
def readItems (cs : List Char) : Option (List Json × Rest cs) :=
  match readValue cs with
  | none => none
  | some (v, ⟨r, hr⟩) =>
    match h : skipBlanks r with
    | ',' :: r' =>
      have hr' : r'.length < cs.length := Nat.lt_trans (length_lt_of_skipBlanks h) hr
      (readItems r').map fun (vs, rest) => (v :: vs, ⟨rest.1, Nat.lt_trans rest.2 hr'⟩)
    | ']' :: r' => some ([v], ⟨r', Nat.lt_trans (length_lt_of_skipBlanks h) hr⟩)
    | _ => none
termination_by (cs.length, 1)

/-- Members up to the closing brace. -/
def readMembers (cs : List Char) : Option (List (Option String × Json) × Rest cs) :=
  match readString cs with
  | none => none
  | some (k, ⟨r₁, h₁⟩) =>
    match hc : skipBlanks r₁ with
    | ':' :: r₂ =>
      have h₂ : r₂.length < cs.length := Nat.lt_trans (length_lt_of_skipBlanks hc) h₁
      match readValue r₂ with
      | none => none
      | some (v, ⟨r₃, h₃⟩) =>
        have h : r₃.length < cs.length := Nat.lt_trans h₃ h₂
        match he : skipBlanks r₃ with
        | ',' :: r₄ =>
          have hr : r₄.length < cs.length := Nat.lt_trans (length_lt_of_skipBlanks he) h
          (readMembers r₄).map fun (ms, rest) => ((k, v) :: ms, ⟨rest.1, Nat.lt_trans rest.2 hr⟩)
        | '}' :: r₄ => some ([(k, v)], ⟨r₄, Nat.lt_trans (length_lt_of_skipBlanks he) h⟩)
        | _ => none
    | _ => none
termination_by (cs.length, 1)

end

/-- The value that a whole text is. -/
def read (text : String) : Option Json :=
  match readValue text.toList with
  | some (j, ⟨rest, _⟩) => if (skipBlanks rest).isEmpty then some (j.within deepest) else none
  | none => none

end Json
end FlatNtuple
