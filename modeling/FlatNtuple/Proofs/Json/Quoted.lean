import FlatNtuple.Json.Reader
import Mathlib.Data.List.Forall2
/-!
# Quoted strings are read back

Each character of a string is written as one piece, itself or the unit of its number (`exists_piece`), and no such unit is
half of a surrogate pair, so that the pieces spell the string (`readString_quote`).
-/
namespace FlatNtuple
namespace Json

/-- A piece stands for a character, as that character or as a unit below the surrogates. -/
def Piece.StandsFor (p : Piece) (c : Char) : Prop := p = .char c ∨ p = .unit c.toNat ∧ c.toNat < 0x20

theorem unit_hexDigits : ∀ n < 0x20, (match hexDigits n with
    | [a, b, c, d] => hexUnit a b c d
    | _ => none) = some n := by
  decide

theorem hexUnit_hexDigits {n : Nat} (h : n < 0x20) :
    ∃ a b c d, hexDigits n = [a, b, c, d] ∧ hexUnit a b c d = some n := by
  have hunit := unit_hexDigits n h
  split at hunit
  · rename_i a b c d hdigits
    exact ⟨a, b, c, d, hdigits, hunit⟩
  · cases hunit

/-- A character is written as one piece. -/
theorem exists_piece (c : Char) : ∃ p : Piece, p.StandsFor c ∧
    ∀ rest, pieces (escape c ++ rest) = (pieces rest).map fun (ps, r) => (p :: ps, r) := by
  unfold escape
  repeat' split
  all_goals try (subst c; exact ⟨_, .inl rfl, fun rest => by simp [pieces, escaped]⟩)
  · rename_i hlow
    obtain ⟨x₁, x₂, x₃, x₄, hdigits, hunit⟩ := hexUnit_hexDigits hlow
    refine ⟨_, .inr ⟨rfl, hlow⟩, fun rest => ?_⟩
    rw [hdigits]
    simp [pieces, hunit]
  · rename_i hquote hslash _ _ _ _ _ hlow
    refine ⟨_, .inl rfl, fun rest => ?_⟩
    rw [List.singleton_append, pieces]
    · rw [if_neg hlow]
    · exact hquote
    · exact fun _ _ _ _ _ h _ => hslash h
    · exact fun _ _ h _ => hslash h

theorem pieces_escape (cs rest : List Char) :
    ∃ ps, pieces (cs.flatMap escape ++ '"' :: rest) = some (ps, rest) ∧ List.Forall₂ Piece.StandsFor ps cs := by
  induction cs with
  | nil => exact ⟨[], by simp [pieces], .nil⟩
  | cons c cs ih =>
    obtain ⟨ps, hps, hall⟩ := ih
    obtain ⟨p, hp, hpiece⟩ := exists_piece c
    refine ⟨p :: ps, ?_, .cons hp hall⟩
    rw [List.flatMap_cons, List.append_assoc, hpiece, hps]
    rfl

theorem not_surrogate {n : Nat} (h : n < 0x20) : isHighSurrogate n = false ∧ isLowSurrogate n = false := by
  simp only [isHighSurrogate, isLowSurrogate, Bool.and_eq_false_iff, decide_eq_false_iff_not]
  omega

/-- Pieces spell the characters that they stand for. -/
theorem spell_eq {ps : List Piece} {cs : List Char} (h : List.Forall₂ Piece.StandsFor ps cs) : spell ps = some cs := by
  induction h with
  | nil => rfl
  | @cons p c ps cs hp hall ih =>
    obtain rfl | ⟨rfl, hlow⟩ := hp
    · rw [spell, ih]
      rfl
    · obtain ⟨hhigh, hlow⟩ := not_surrogate hlow
      cases hall with
      | nil => simp [spell, hhigh, hlow]
      | @cons p' c' ps cs hp' hall =>
        obtain rfl | ⟨rfl, hlow'⟩ := hp'
        · rw [spell, hhigh, hlow, ih]
          · simp
          · nofun
        · obtain ⟨-, hlow'⟩ := not_surrogate hlow'
          simp [spell, hhigh, hlow, hlow', ih]

theorem skipBlanks_cons {c : Char} (h : isBlank c = false) (cs : List Char) : skipBlanks (c :: cs) = c :: cs :=
  List.dropWhile_cons_of_neg (by simp [h])

/-- **A quoted string is read back**, whatever follows it. -/
theorem readString_quote (s : String) (rest : List Char) :
    ∃ h, readString ((quote s).toList ++ rest) = some (some s, ⟨rest, h⟩) := by
  obtain ⟨ps, hps, hall⟩ := pieces_escape s.toList rest
  have htext : (quote s).toList ++ rest = '"' :: (s.toList.flatMap escape ++ '"' :: rest) := by simp [quote]
  rw [htext, readString]
  have hskip := skipBlanks_cons (c := '"') rfl (s.toList.flatMap escape ++ '"' :: rest)
  split
  · rename_i body hbody
    obtain rfl : s.toList.flatMap escape ++ '"' :: rest = body := (List.cons.inj (hskip.symm.trans hbody)).2
    split
    · rename_i ps' r hr
      obtain ⟨rfl, rfl⟩ : ps = ps' ∧ rest = r := by simpa using hps.symm.trans hr
      rw [spell_eq hall]
      exact ⟨Nat.lt_succ_of_lt (length_pieces hps), by simp⟩
    · rename_i hnone
      cases hps.symm.trans hnone
  · rename_i hbody
    exact absurd hskip (hbody _)

end Json
end FlatNtuple
