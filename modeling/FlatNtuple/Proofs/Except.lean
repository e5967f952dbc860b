/-!
# Results of computations that may fail

When a computation made of two steps succeeds, and with what.  Of two computations made of the same steps, the one may
take other values than the other and succeed where it does (`Follows`), or the two succeed together, with values that are
related (`Parallel`).
-/
namespace FlatNtuple

variable {ε α β γ δ : Type}

theorem bind_eq_ok {x : Except ε α} {f : α → Except ε β} {b : β} :
    (x >>= f) = .ok b ↔ ∃ a, x = .ok a ∧ f a = .ok b := by
  cases x with
  | error e => simp [bind, Except.bind]
  | ok a => simp [bind, Except.bind]

theorem pure_eq_ok {a b : α} : (pure a : Except ε α) = .ok b ↔ a = b := Except.ok.injEq a b ▸ Iff.rfl

theorem map_eq_ok {f : α → β} {x : Except ε α} {b : β} : x.map f = .ok b ↔ ∃ a, x = .ok a ∧ f a = b := by
  cases x <;> simp [Except.map]

theorem map_eq_error {f : α → β} {x : Except ε α} {e : ε} : x.map f = .error e ↔ x = .error e := by
  cases x <;> simp [Except.map]

theorem exists_map_eq_ok {f : α → β} {x : Except ε α} : (∃ b, x.map f = .ok b) ↔ ∃ a, x = .ok a := by
  cases x <;> simp [Except.map]

theorem exists_of_isOk : ∀ {x : Except ε α}, x.isOk → ∃ a, x = .ok a
  | .ok a, _ => ⟨a, rfl⟩

/-- Where the first computation yields a value, the second yields what a function makes of it. -/
def Follows (r : α → β) (x : Except ε α) (y : Except ε β) : Prop := ∀ a, x = .ok a → y = .ok (r a)

namespace Follows

variable {r : α → β} {s : γ → δ}

theorem ok {a : α} : Follows r (.ok a : Except ε α) (.ok (r a)) := by
  rintro _ ⟨⟩
  rfl

theorem error {e : ε} {y : Except ε β} : Follows r (.error e) y := nofun

theorem bind {x : Except ε α} {y : Except ε β} {f : α → Except ε γ} {g : β → Except ε δ} (h : Follows r x y)
    (hstep : ∀ a, Follows s (f a) (g (r a))) : Follows s (x >>= f) (y >>= g) := by
  intro c hc
  obtain ⟨a, ha, hfa⟩ := bind_eq_ok.1 hc
  exact bind_eq_ok.2 ⟨r a, h a ha, hstep a c hfa⟩

end Follows

/-- Where the first computation yields a value, the second yields a related one, and if `p` holds the first does so where
the second does. -/
structure Parallel (p : Prop) (R : α → β → Prop) (x : Except ε α) (y : Except ε β) : Prop where
  forth : ∀ a, x = .ok a → ∃ b, y = .ok b ∧ R a b
  back : p → ∀ b, y = .ok b → ∃ a, x = .ok a ∧ R a b

namespace Parallel

variable {p q : Prop} {R : α → β → Prop} {S : γ → δ → Prop}

theorem ok {a : α} {b : β} (h : R a b) : Parallel p R (.ok a : Except ε α) (.ok b) where
  forth := by
    rintro _ ⟨⟩
    exact ⟨b, rfl, h⟩
  back := by
    rintro - _ ⟨⟩
    exact ⟨a, rfl, h⟩

theorem error {e e' : ε} : Parallel p R (.error e) (.error e') := ⟨nofun, nofun⟩

theorem error_of_not {e : ε} {y : Except ε β} (h : ¬ p) : Parallel p R (.error e) y := ⟨nofun, fun hp => absurd hp h⟩

theorem refl (x : Except ε α) : Parallel p Eq x x := ⟨fun a h => ⟨a, h, rfl⟩, fun _ a h => ⟨a, h, rfl⟩⟩

theorem mono {x : Except ε α} {y : Except ε β} (h : Parallel p R x y) (hpq : q → p) : Parallel q R x y :=
  ⟨h.forth, fun hq => h.back (hpq hq)⟩

theorem imp {S : α → β → Prop} {x : Except ε α} {y : Except ε β} (h : Parallel p R x y) (hRS : ∀ a b, R a b → S a b) :
    Parallel p S x y where
  forth := fun a ha => (h.forth a ha).imp fun b => And.imp_right (hRS a b)
  back := fun hp b hb => (h.back hp b hb).imp fun a => And.imp_right (hRS a b)

theorem bind {x : Except ε α} {y : Except ε β} {f : α → Except ε γ} {g : β → Except ε δ} (h : Parallel p R x y)
    (hstep : ∀ a b, R a b → Parallel p S (f a) (g b)) : Parallel p S (x >>= f) (y >>= g) where
  forth := by
    intro c hc
    obtain ⟨a, ha, hfa⟩ := bind_eq_ok.1 hc
    obtain ⟨b, hb, hab⟩ := h.forth a ha
    obtain ⟨d, hd, hcd⟩ := (hstep a b hab).forth c hfa
    exact ⟨d, bind_eq_ok.2 ⟨b, hb, hd⟩, hcd⟩
  back := by
    intro hp d hd
    obtain ⟨b, hb, hgb⟩ := bind_eq_ok.1 hd
    obtain ⟨a, ha, hab⟩ := h.back hp b hb
    obtain ⟨c, hc, hcd⟩ := (hstep a b hab).back hp d hgb
    exact ⟨c, bind_eq_ok.2 ⟨a, ha, hc⟩, hcd⟩

/-- Where the values are the same, so is what is done with them. -/
theorem bind_eq {x y : Except ε α} {f : α → Except ε γ} {g : α → Except ε δ} (h : Parallel p Eq x y)
    (hstep : ∀ a, Parallel p S (f a) (g a)) : Parallel p S (x >>= f) (y >>= g) :=
  h.bind fun a _ hab => hab ▸ hstep a

end Parallel
end FlatNtuple
