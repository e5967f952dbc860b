import FlatNtuple.Proofs.Dictionary
import FlatNtuple.Selection.LooseElectron
/-!
# What an embedder writes

An embedder changes nothing but the user data of electrons, and there only the integer of its label and the floats of
its derived flags (`produce_marks`).  The flags are derived one after the other, in the data that they are read from.
So they come from the flags that an electron came with unless a flag is derived from a derived one, which is so for
some electron as soon as the names allow it (`flags_as_given_iff`).
-/
namespace FlatNtuple

theorem Electron.passesLoose_eq (e : Electron) (vertex : Point) :
    e.passesLoose vertex = e.region?.any fun cuts => cuts.passes (e.idVariables vertex) := by
  unfold passesLoose
  cases e.region? <;> rfl

namespace Embedder

/-- The derived flag for a decision. -/
def mark (pass : Bool) (decision : Float32) : Float32 := if decision != 0 && pass then 1 else 0

variable {c : Embedder} {suffix flag : String} {pass : Bool} {flags : List String} {floats : OrderedMap Float32}

/-- A mark is a decision again, the same one. -/
theorem mark_mark (decision : Float32) : mark pass (mark pass decision) = mark pass decision := by
  cases h : decision != 0 && pass with
  | false =>
    have hmark : mark pass decision = 0 := by rw [mark, h]; rfl
    have hzero : ((0 : Float32) != 0) = false := by decide +kernel
    rw [hmark, mark, hzero]
    rfl
  | true =>
    have hmark : mark pass decision = 1 := by rw [mark, h]; rfl
    have hone : ((1 : Float32) != 0) = true := by decide +kernel
    rw [hmark, mark, hone, (Bool.and_eq_true_iff.1 h).2]
    rfl

/-! ## Deriving one flag -/

theorem get?_derive (key : String) : (derive suffix pass floats flag).get? key =
    if key = flag ++ suffix then ((floats.get? flag).map (mark pass)).or (floats.get? key) else floats.get? key := by
  unfold derive
  cases floats.get? flag with
  | none => simp
  | some decision => simp [OrderedMap.get?_insert, mark]

theorem changedOnly_derive {changed : List String} (h : flag ++ suffix ∈ changed) :
    floats.ChangedOnly changed (derive suffix pass floats flag) := by
  unfold derive
  split
  · exact .insert h _ _
  · exact .refl _ _

theorem changedOnly_foldl {changed : List String} (h : ∀ flag ∈ flags, flag ++ suffix ∈ changed) :
    floats.ChangedOnly changed (flags.foldl (derive suffix pass) floats) := by
  induction flags generalizing floats with
  | nil => exact .refl _ _
  | cons flag flags ih =>
    obtain ⟨hflag, hflags⟩ := List.forall_mem_cons.1 h
    exact (changedOnly_derive hflag).trans (ih hflags)

/-! ## What else stays as it was -/

/-- An electron has become another one by the marks of an embedder: the decision under its label and, in the floats,
derived flags. -/
structure Marks (c : Embedder) (vertex : Point) (e e' : Electron) : Prop where
  same : e' = { e with user := e'.user }
  loose : e'.user.ints.get? c.label = some (if e.passesLoose vertex then 1 else 0)
  ints : e.user.ints.ChangedOnly [c.label] e'.user.ints
  floats : e.user.floats.ChangedOnly (c.flags.map (· ++ c.suffix)) e'.user.floats

theorem marks_embed (c : Embedder) (vertex : Point) (e : Electron) : c.Marks vertex e (c.embed vertex e) where
  same := rfl
  loose := by
    rw [Electron.passesLoose_eq]
    exact (OrderedMap.get?_insert ..).trans (if_pos rfl)
  ints := .insert (List.mem_singleton.2 rfl) _ _
  floats := changedOnly_foldl fun _ hflag => List.mem_map_of_mem hflag

/-- **An embedder fails without a vertex and else marks each electron**, with respect to the first vertex. -/
theorem produce_marks (c : Embedder) (electrons : List Electron) :
    (∀ vertices, c.produce electrons vertices = .error .noPrimaryVertex ↔ vertices = []) ∧
    ∀ v : Vertex, ∃ out, (∀ rest, c.produce electrons (v :: rest) = .ok out) ∧
      List.Forall₂ (c.Marks v.position) electrons out := by
  refine ⟨fun vertices => ?_, fun v => ⟨electrons.map (c.embed v.position), fun _ => rfl, ?_⟩⟩
  · cases vertices with
    | nil => exact iff_of_true rfl rfl
    | cons v rest => exact iff_of_false nofun nofun
  · exact List.forall₂_map_right_iff.2 (List.forall₂_same.2 fun e _ => c.marks_embed v.position e)

/-! ## Flags from flags -/

/-- No flag is derived from another derived flag: none of the names is a name with the suffix. -/
def Unchained (c : Embedder) : Prop := ∀ flag ∈ c.flags, flag ++ c.suffix ∈ c.flags → c.suffix = ""

instance (c : Embedder) : Decidable c.Unchained := inferInstanceAs (Decidable (∀ flag ∈ c.flags, _ → _))

/-- The derived flags come from the flags that an electron came with: there is one for each of its flags, the flag with
the cut on the impact parameters added, and no other one is written. -/
def Derives (c : Embedder) (vertex : Point) (e e' : Electron) : Prop :=
  ∀ flag ∈ c.flags, e'.user.floats.get? (flag ++ c.suffix) =
    match e.user.floats.get? flag with
    | some decision => some (if decision != 0 && e.passesFlagCut vertex then 1 else 0)
    | none => e.user.floats.get? (flag ++ c.suffix)

/-- What is decided for a flag is not changed by deriving another one. -/
theorem map_mark_derive {flag' : String} (h : flag' = flag ++ suffix → suffix = "") :
    ((derive suffix pass floats flag).get? flag').map (mark pass) = (floats.get? flag').map (mark pass) := by
  rw [get?_derive]
  split
  · rename_i heq
    obtain rfl := h heq
    rw [String.append_empty] at heq
    subst heq
    cases floats.get? flag' with
    | none => rfl
    | some decision => exact congrArg some (mark_mark decision)
  · rfl

/-- **A derived flag is that of the flag which was there first**, if none is derived from a derived one. -/
theorem get?_foldl_derive (h : ∀ f ∈ flags, f ++ suffix ∈ flags → suffix = "") (hflag : flag ∈ flags) :
    (flags.foldl (derive suffix pass) floats).get? (flag ++ suffix) =
      ((floats.get? flag).map (mark pass)).or (floats.get? (flag ++ suffix)) := by
  induction flags generalizing floats with
  | nil => cases hflag
  | cons first rest ih =>
    have hrest : ∀ f ∈ rest, f ++ suffix ∈ rest → suffix = "" := fun f hf hmem =>
      h f (List.mem_cons_of_mem _ hf) (List.mem_cons_of_mem _ hmem)
    rw [List.foldl_cons]
    by_cases hmem : flag ∈ rest
    · have hfirst : flag = first ++ suffix → suffix = "" := fun heq => h first List.mem_cons_self (heq ▸ hflag)
      rw [ih hrest hmem, map_mark_derive hfirst, get?_derive]
      split
      · rename_i heq
        rw [(String.append_left_inj suffix).1 heq, ← Option.or_assoc, Option.or_self]
      · rfl
    · obtain rfl := (List.mem_cons.1 hflag).resolve_right hmem
      have hnew : flag ++ suffix ∉ rest.map (· ++ suffix) := fun hmap => by
        obtain ⟨f, hf, heq⟩ := List.mem_map.1 hmap
        exact hmem ((String.append_left_inj suffix).1 heq ▸ hf)
      have hothers : ∀ f ∈ rest, f ++ suffix ∈ rest.map (· ++ suffix) := fun f hf => List.mem_map_of_mem hf
      rw [(changedOnly_foldl hothers).get?_eq hnew, get?_derive, if_pos rfl]

theorem get?_floats_embed (h : c.Unchained) (hflag : flag ∈ c.flags) (vertex : Point) (e : Electron) :
    (c.embed vertex e).user.floats.get? (flag ++ c.suffix) =
      ((e.user.floats.get? flag).map (mark (e.passesFlagCut vertex))).or (e.user.floats.get? (flag ++ c.suffix)) :=
  get?_foldl_derive h hflag

theorem derives_embed (h : c.Unchained) (vertex : Point) (e : Electron) : c.Derives vertex e (c.embed vertex e) := by
  intro flag hflag
  rw [get?_floats_embed h hflag]
  cases e.user.floats.get? flag <;> rfl

/-- In another order the flags are the same. -/
theorem get?_floats_embed_of_perm (h : c.Unchained) (hperm : flags.Perm c.flags) (vertex : Point) (e : Electron)
    (key : String) : ({ c with flags := flags }.embed vertex e).user.floats.get? key =
      (c.embed vertex e).user.floats.get? key := by
  have h' : Unchained { c with flags := flags } := fun flag hflag hmem =>
    h flag (hperm.mem_iff.1 hflag) (hperm.mem_iff.1 hmem)
  by_cases hkey : key ∈ c.flags.map (· ++ c.suffix)
  · obtain ⟨flag, hflag, rfl⟩ := List.mem_map.1 hkey
    exact (get?_floats_embed h' (hperm.mem_iff.2 hflag) vertex e).trans (get?_floats_embed h hflag vertex e).symm
  · have hkey' : key ∉ flags.map (· ++ c.suffix) := mt ((hperm.map _).mem_iff).1 hkey
    exact ((marks_embed _ vertex e).floats.get?_eq hkey').trans ((c.marks_embed vertex e).floats.get?_eq hkey).symm

/-- An electron with one flag. -/
def flagged (flag : String) : Electron := { user := { floats := .ofList [(flag, 1)] } }

theorem get?_flagged (flag key : String) : (flagged flag).user.floats.get? key = if key = flag then some 1 else none :=
  OrderedMap.get?_insert ..

/-- A flag with the suffix that comes right behind the flag is derived again. -/
theorem get?_foldl_derive_twice (flags : List String) (h : floats.get? flag ≠ none) :
    ((flag :: (flag ++ suffix) :: flags).foldl (derive suffix pass) floats).get? (flag ++ suffix ++ suffix) ≠ none := by
  have hsome {m : OrderedMap Float32} (f : String) (hf : m.get? f ≠ none) :
      (derive suffix pass m f).get? (f ++ suffix) ≠ none := by
    rw [get?_derive, if_pos rfl]
    obtain ⟨decision, hdecision⟩ := Option.ne_none_iff_exists'.1 hf
    rw [hdecision]
    exact nofun
  have hkeys : ∀ f ∈ flags, f ++ suffix ∈ flags.map (· ++ suffix) := fun f hf => List.mem_map_of_mem hf
  have hmem (m : OrderedMap Float32) :
      m.get? (flag ++ suffix ++ suffix) ≠ none ↔ flag ++ suffix ++ suffix ∈ m.keys := by
    rw [OrderedMap.get?, ne_eq, lookup_eq_none_iff_notMem, not_not, OrderedMap.keys]
  rw [List.foldl_cons, List.foldl_cons, hmem]
  exact (changedOnly_foldl hkeys).keys.subset ((hmem _).1 (hsome _ (hsome _ h)))

theorem get?_embed_flagged (c : Embedder) (flag : String) (flags : List String) (vertex : Point) :
    ({ c with flags := flag :: (flag ++ c.suffix) :: flags }.embed vertex (flagged flag)).user.floats.get?
      (flag ++ c.suffix ++ c.suffix) ≠ none := by
  have hflag : (flagged flag).user.floats.get? flag ≠ none := by
    rw [get?_flagged, if_pos rfl]
    exact nofun
  exact get?_foldl_derive_twice flags hflag

/-- No flag comes from a derived one. -/
theorem Derives.get?_eq_none {vertex : Point} {e : Electron} (h : c.Derives vertex (flagged flag) e)
    (hmem : flag ++ c.suffix ∈ c.flags) (hsuffix : c.suffix ≠ "") :
    e.user.floats.get? (flag ++ c.suffix ++ c.suffix) = none := by
  have hne : flag ++ c.suffix ≠ flag := fun heq => hsuffix (by simpa using heq)
  have hne' : flag ++ c.suffix ++ c.suffix ≠ flag := fun heq => hsuffix (by simpa [String.append_assoc] using heq)
  have hnone := h (flag ++ c.suffix) hmem
  rwa [get?_flagged, get?_flagged, if_neg hne, if_neg hne'] at hnone

/-- **Derived flags come from the flags that electrons came with, in whatever order they are derived, exactly if none is
derived from a derived one.** -/
theorem flags_as_given_iff (c : Embedder) : c.Unchained ↔
    ∀ (electrons : List Electron) (v : Vertex) (rest : List Vertex), ∃ out,
      c.produce electrons (v :: rest) = .ok out ∧ List.Forall₂ (c.Derives v.position) electrons out ∧
      ∀ flags : List String, flags.Perm c.flags → ∃ out',
        { c with flags := flags }.produce electrons (v :: rest) = .ok out' ∧
        List.Forall₂ (fun e e' => ∀ key, e.user.floats.get? key = e'.user.floats.get? key) out' out := by
  constructor
  · intro h electrons v rest
    refine ⟨_, rfl, ?_, fun flags hperm => ⟨_, rfl, ?_⟩⟩
    · exact List.forall₂_map_right_iff.2 (List.forall₂_same.2 fun e _ => derives_embed h v.position e)
    · rw [List.forall₂_map_left_iff, List.forall₂_map_right_iff, List.forall₂_same]
      exact fun e _ key => get?_floats_embed_of_perm h hperm v.position e key
  · intro h flag hflag hmem
    by_contra hsuffix
    -- The flag is put first and the flag with the suffix next; the other names do not matter.
    have hne : flag ++ c.suffix ≠ flag := fun heq => hsuffix (by simpa using heq)
    have hnext := List.perm_cons_erase ((List.mem_erase_of_ne hne).2 hmem)
    have hperm : (flag :: (flag ++ c.suffix) :: (c.flags.erase flag).erase (flag ++ c.suffix)).Perm c.flags :=
      (hnext.symm.cons flag).trans (List.perm_cons_erase hflag).symm
    obtain ⟨out, hout, hderives, hperms⟩ := h [flagged flag] ⟨{}, 0, true, false⟩ []
    obtain ⟨out', hout', hsame⟩ := hperms _ hperm
    cases hout
    cases hout'
    simp only [List.map_cons, List.map_nil, List.forall₂_cons, List.Forall₂.nil, and_true] at hderives hsame
    exact get?_embed_flagged c flag _ _ ((hsame _).trans (hderives.get?_eq_none hmem hsuffix))

/-- The usual names are of this kind. -/
example : ({} : Embedder).Unchained := by decide +kernel

/-- With a name that is another one with the suffix, a flag is derived that the electron had no flag for, and only in
one of the two orders. -/
theorem flags_of_flags :
    let c : Embedder := ⟨["a", "aw"], "loose", "w"⟩
    let v : Vertex := ⟨{}, 20, true, false⟩
    ∃ e e', c.produce [flagged "a"] [v] = .ok [e] ∧
      { c with flags := ["aw", "a"] }.produce [flagged "a"] [v] = .ok [e'] ∧
      (flagged "a").user.floats.get? "aw" = none ∧ e.user.floats.get? "aww" = some 1 ∧
      e'.user.floats.get? "aww" = none := by
  refine ⟨_, _, rfl, rfl, ?_, ?_, ?_⟩ <;> decide +kernel

end Embedder
end FlatNtuple
