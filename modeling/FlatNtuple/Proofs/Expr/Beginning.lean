import FlatNtuple.Proofs.Expr.Soundness
/-!
# What a phrase begins with

Some tokens are `Begun` as a symbol if they can be completed to a phrase of it.  Every symbol has a phrase, so whatever
still has to follow can always be put there.
-/
namespace FlatNtuple
namespace Grammar

open FlatNtuple.Parser

/-- Some phrase of the symbol begins with the tokens. -/
def Begun (a : Symbol) (ts : List Token) : Prop := ∃ d : Derivation a, ts <+: d.tokens

/-- Some tokens of which the last is not a dot. -/
def Undotted (ts : List Token) : Prop := ∃ us t, ts = us ++ [t] ∧ t ≠ .dot

section
variable {a b : Symbol} {ts us : List Token}

theorem begun_tokens (d : Derivation a) : Begun a d.tokens := ⟨d, List.prefix_rfl⟩

theorem Begun.mono (h : Begun a us) (hts : ts <+: us) : Begun a ts :=
  have ⟨d, hd⟩ := h
  ⟨d, hts.trans hd⟩

theorem Begun.of_append (h : Begun a (ts ++ us)) : Begun a ts := h.mono (List.prefix_append ts us)

/-- Where a phrase may follow, its beginning may follow. -/
theorem Begun.append (h : Begun b us) (hall : ∀ d : Derivation b, Begun a (ts ++ d.tokens)) : Begun a (ts ++ us) :=
  have ⟨d, hd⟩ := h
  (hall d).mono ((List.prefix_append_right_inj ts).2 hd)

theorem Begun.loosen (h : Begun b ts) (hle : rankOf a ≤ rankOf b) : Begun a ts := by
  obtain ⟨d, hd⟩ := h
  obtain ⟨d', htokens, -, -⟩ := exists_loosened d hle
  exact ⟨d', htokens ▸ hd⟩

theorem nonempty_derivation (a : Symbol) : Nonempty (Derivation a) := by
  have hle : rankOf a ≤ rankOf .prim := by
    rcases a with _ | (_ | _ | _ | _ | _ | _) | _ | _ | _ | _ <;> decide
  obtain ⟨d, -⟩ := exists_loosened (.name "x") hle
  exact ⟨d⟩

theorem begun_nil (a : Symbol) : Begun a [] :=
  have ⟨d⟩ := nonempty_derivation a
  ⟨d, List.nil_prefix⟩

theorem undotted_concat {t : Token} (h : t ≠ .dot) (ts : List Token) : Undotted (ts ++ [t]) := ⟨ts, t, rfl, h⟩

theorem Undotted.append (h : Undotted us) (ts : List Token) : Undotted (ts ++ us) :=
  have ⟨vs, t, hus, ht⟩ := h
  ⟨ts ++ vs, t, by rw [hus, List.append_assoc], ht⟩

theorem Undotted.cons (h : Undotted us) (t : Token) : Undotted (t :: us) := h.append [t]

theorem Undotted.getLast?_ne (h : Undotted ts) : ts.getLast? ≠ some .dot := by
  obtain ⟨us, t, rfl, ht⟩ := h
  simpa using ht

theorem Undotted.length_pos (h : Undotted ts) : 0 < ts.length := by
  obtain ⟨us, t, rfl, -⟩ := h
  simp

end

mutual

/-- No phrase ends in a dot. -/
theorem Derivation.undotted {a : Symbol} : (d : Derivation a) → Undotted d.tokens
  | .condition c => c.undotted
  | .conditional _ _ y => ((y.undotted.cons _).append _ |>.cons _).append _
  | .operand x => x.undotted
  | .binary _ _ _ r => (r.undotted.cons _).append _
  | .signed _ x => x.undotted.cons _
  | .plus x => x.undotted.cons _
  | .unsigned x => x.undotted
  | .base x => x.undotted
  | .power _ y => (y.undotted.cons _).append _
  | .primary x => x.undotted
  | .access _ s => s.undotted.append _
  | .call _ _ => ((undotted_concat (by nofun) _).cons _).cons _
  | .group _ => (undotted_concat (by nofun) _).cons _
  | .name _ | .integer _ | .decimal _ | .string _ | .bool _ => undotted_concat (by nofun) []

theorem Suffix.undotted : (s : Suffix) → Undotted s.tokens
  | .member _ => (undotted_concat (by nofun) []).cons _
  | .memberCall _ _ => (((undotted_concat (by nofun) _).cons _).cons _).cons _
  | .index _ => (undotted_concat (by nofun) _).cons _

end

end Grammar
end FlatNtuple
