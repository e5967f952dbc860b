import FlatNtuple.Function.Native
import FlatNtuple.Proofs.Dictionary
/-!
# Layers of a table

A table is filled by registrations in two layers, some of which may be refused.  What it holds then is determined by the
first function of each name in each layer, where the layer of the object type comes before the shared one (`Holds`).
So the order of the registrations does not matter if none of them repeats a name within its layer (`after_layers`).

A table keeps one function of a name and forgets a shared one that is shadowed.  From then on it takes a second shared
function of the name for the first and does not refuse it: `insert_refused_iff` says which registrations are refused,
and `shared_twice_accepted` shows one that is not.
-/
namespace FlatNtuple
namespace NativeTable

variable {k : ReturnKind} {t : ObjectType}

/-- The table after some registrations, of which each may have been refused. -/
def after (n : NativeTable k t) (fs : List (NamedFunction k t)) : NativeTable k t :=
  fs.foldl (fun n f => (n.insert f).2) n

/-- The answers to some registrations, one after the other. -/
def answers (n : NativeTable k t) : List (NamedFunction k t) → List (Except DuplicateFunction Unit)
  | [] => []
  | f :: rest => (n.insert f).1 :: (n.insert f).2.answers rest

/-- The first function of a name in a layer. -/
def first? (layer : Origin) (name : String) (fs : List (NamedFunction k t)) : Option (NamedFunction k t) :=
  fs.find? fun f => f.origin = layer ∧ f.name = name

/-- Functions of the two layers only. -/
def Layered (fs : List (NamedFunction k t)) : Prop := ∀ f ∈ fs, f.origin ≠ .compiled

/-- The table holds of each name the first function of the object type, or else the first shared one. -/
def Holds (n : NativeTable k t) (fs : List (NamedFunction k t)) : Prop :=
  ∀ name, n.get? name = (first? .object name fs).or (first? .shared name fs)

section
variable {n : NativeTable k t} {f g : NamedFunction k t} {fs gs : List (NamedFunction k t)} {layer : Origin}
  {name : String}

theorem first?_eq_some (h : first? layer name fs = some f) : f ∈ fs ∧ f.origin = layer ∧ f.name = name :=
  ⟨List.mem_of_find?_eq_some h, by simpa using List.find?_some h⟩

theorem isSome_first? : (first? layer name fs).isSome ↔ ∃ g ∈ fs, g.origin = layer ∧ g.name = name := by
  simp [first?, List.find?_isSome]

theorem first?_append : first? layer name (fs ++ gs) = (first? layer name fs).or (first? layer name gs) :=
  List.find?_append

theorem first?_concat : first? layer name (fs ++ [f]) =
    (first? layer name fs).or (if f.origin = layer ∧ f.name = name then some f else none) := by
  rw [first?_append]
  simp [first?, List.find?_singleton]

theorem first?_map (layer layer' : Origin) (name : String) (l : List (String × (t.Record → Event → k.Carrier))) :
    first? layer name (l.map fun e => ⟨e.1, layer', e.2⟩) =
      if layer' = layer then (l.lookup name).map (⟨name, layer, ·⟩) else none := by
  induction l with
  | nil => simp [first?]
  | cons e l ih =>
    obtain ⟨key, g⟩ := e
    rw [List.map_cons, ← List.singleton_append, first?_append, ih, List.lookup_cons]
    by_cases hlayer : layer' = layer
    · by_cases hname : name = key
      · simp [first?, hlayer, hname]
      · simp [first?, hlayer, Ne.symm hname, beq_eq_false_iff_ne.2 hname]
    · simp [first?, hlayer]

/-! ## One registration -/

/-- A registration that is refused leaves no trace. -/
theorem insert_of_error {e : DuplicateFunction} (h : (n.insert f).1 = .error e) : (n.insert f).2 = n := by
  revert h
  unfold insert
  split
  · nofun
  · split
    · nofun
    · nofun
    · exact fun _ => rfl

theorem insert_get?_of_ne (h : f.name ≠ name) : (n.insert f).2.get? name = n.get? name := by
  unfold insert
  repeat' split
  all_goals simp [get?_put, Ne.symm h]

/-- A name is taken by a function of the object type, or else by a shared one, or free. -/
theorem Holds.taken (h : Holds n fs) (name : String) :
    (∃ g, n.get? name = some g ∧ g.origin = .object ∧ first? .object name fs = some g) ∨
    (∃ g, n.get? name = some g ∧ g.origin = .shared ∧ first? .object name fs = none ∧
      first? .shared name fs = some g) ∨
    (n.get? name = none ∧ first? .object name fs = none ∧ first? .shared name fs = none) := by
  rw [h name]
  cases hobject : first? .object name fs with
  | some g => exact .inl ⟨g, rfl, (first?_eq_some hobject).2.1, rfl⟩
  | none =>
    cases hshared : first? .shared name fs with
    | some g => exact .inr (.inl ⟨g, rfl, (first?_eq_some hshared).2.1, rfl, rfl⟩)
    | none => exact .inr (.inr ⟨rfl, rfl, rfl⟩)

theorem Holds.insert_object (h : Holds n fs) (hf : f.origin = .object) : n.insert f =
    if (first? .object f.name fs).isSome then (.error ⟨f.name, k, t.kind⟩, n) else (.ok (), n.put f) := by
  unfold insert
  obtain ⟨g, hget, hg, hobject⟩ | ⟨g, hget, hg, hobject, -⟩ | ⟨hget, hobject, -⟩ := h.taken f.name
  · simp [hget, hg, hf, hobject]
  · simp [hget, hg, hf, hobject]
  · simp [hget, hobject]

/-- A shared function is left out after one of the object type, and refused after another shared one. -/
theorem Holds.insert_shared (h : Holds n fs) (hf : f.origin = .shared) : n.insert f =
    if (first? .object f.name fs).isSome then (.ok (), n)
    else if (first? .shared f.name fs).isSome then (.error ⟨f.name, k, t.kind⟩, n) else (.ok (), n.put f) := by
  unfold insert
  obtain ⟨g, hget, hg, hobject⟩ | ⟨g, hget, hg, hobject, hshared⟩ | ⟨hget, hobject, hshared⟩ := h.taken f.name
  · simp [hget, hg, hf, hobject]
  · simp [hget, hg, hf, hobject, hshared]
  · simp [hget, hobject, hshared]

/-- **A registration keeps what a table holds in step with what was registered.** -/
theorem Holds.insert (h : Holds n fs) (hf : f.origin ≠ .compiled) : Holds (n.insert f).2 (fs ++ [f]) := by
  intro name
  rw [first?_concat, first?_concat]
  by_cases hname : f.name = name
  · subst hname
    obtain ⟨g, hget, -, hobject⟩ | ⟨g, hget, -, hobject, hshared⟩ | ⟨-, hobject, hshared⟩ := h.taken f.name
    all_goals cases hlayer : f.origin with
      | compiled => exact absurd hlayer hf
      | object => simp [h.insert_object hlayer, get?_put, *]
      | shared => simp [h.insert_shared hlayer, get?_put, *]
  · rw [insert_get?_of_ne hname, h name]
    simp [hname]

/-- **Which registrations are refused**: those of a name that was registered in the same layer before, except that a
shared function is not refused any more once one of the object type was registered. -/
theorem Holds.insert_eq_error_iff (h : Holds n fs) (hf : f.origin ≠ .compiled) (e : DuplicateFunction) :
    (n.insert f).1 = .error e ↔ e = ⟨f.name, k, t.kind⟩ ∧ (∃ g ∈ fs, g.origin = f.origin ∧ g.name = f.name) ∧
      (f.origin = .shared → ¬∃ g ∈ fs, g.origin = .object ∧ g.name = f.name) := by
  rw [← isSome_first?, ← isSome_first?]
  cases hlayer : f.origin with
  | compiled => exact absurd hlayer hf
  | object =>
    rw [h.insert_object hlayer]
    split
    · rename_i hobject
      exact ⟨fun he => ⟨(Except.error.inj he).symm, hobject, nofun⟩, fun he => congrArg Except.error he.1.symm⟩
    · rename_i hobject
      exact ⟨nofun, fun he => absurd he.2.1 hobject⟩
  | shared =>
    rw [h.insert_shared hlayer]
    split
    · rename_i hobject
      exact ⟨nofun, fun he => absurd hobject (he.2.2 rfl)⟩
    · rename_i hobject
      split
      · rename_i hshared
        exact ⟨fun he => ⟨(Except.error.inj he).symm, hshared, fun _ => hobject⟩,
          fun he => congrArg Except.error he.1.symm⟩
      · rename_i hshared
        exact ⟨nofun, fun he => absurd he.2.1 hshared⟩

/-! ## Runs of registrations -/

theorem holds_empty : Holds (empty : NativeTable k t) [] := fun _ => rfl

theorem Holds.after (h : Holds n fs) (hgs : Layered gs) : Holds (n.after gs) (fs ++ gs) := by
  induction gs generalizing n fs with
  | nil => rwa [List.append_nil]
  | cons g gs ih =>
    have hcons := List.forall_mem_cons.1 hgs
    rw [← List.singleton_append, ← List.append_assoc]
    exact ih (h.insert hcons.1) hcons.2

/-- What a table holds does not depend on how it came to hold it. -/
theorem Holds.eq {m : NativeTable k t} (h : Holds n fs) (h' : Holds m gs)
    (hobject : ∀ name, first? .object name fs = first? .object name gs)
    (hshared : ∀ name, first? .shared name fs = first? .shared name gs) : n = m := by
  have hfunctions : n.functions = m.functions := SortedMap.eq_of_get? fun name => by
    rw [show n.functions.get? name = _ from h name, hobject, hshared]
    exact (h' name).symm
  cases n
  cases m
  cases hfunctions
  rfl

theorem Holds.size (h : Holds n fs) (hfs : Layered fs) :
    n.size = (fs.map NamedFunction.name).dedup.length := by
  have hmem (name : String) : name ∈ n.functions.keys ↔ name ∈ fs.map NamedFunction.name := by
    rw [SortedMap.mem_keys, show n.functions.get? name = _ from h name, Option.isSome_or, Bool.or_eq_true,
      isSome_first?, isSome_first?, List.mem_map]
    constructor
    · rintro (⟨g, hg, -, hname⟩ | ⟨g, hg, -, hname⟩) <;> exact ⟨g, hg, hname⟩
    · rintro ⟨g, hg, hname⟩
      cases hlayer : g.origin with
      | object => exact .inl ⟨g, hg, hlayer, hname⟩
      | shared => exact .inr ⟨g, hg, hlayer, hname⟩
      | compiled => exact absurd hlayer (hfs g hg)
  -- Neither list has a name twice, so they are as long as each other if they have the same names.
  have hperm : n.functions.keys.Perm (fs.map NamedFunction.name).dedup :=
    (List.perm_ext_iff_of_nodup n.functions.keys_nodup (List.nodup_dedup _)).2 fun name => by
      rw [hmem, List.mem_dedup]
  rw [NativeTable.size, SortedMap.size_eq_length_keys, hperm.length_eq]

/-! ## No name twice in a layer -/

/-- The layer and the name of a function. -/
def place (f : NamedFunction k t) : Origin × String := (f.origin, f.name)

/-- A function that is alone in its place is the first of its name. -/
theorem first?_eq_some_iff (h : (fs.map place).Nodup) :
    first? layer name fs = some f ↔ f ∈ fs ∧ f.origin = layer ∧ f.name = name := by
  refine ⟨first?_eq_some, fun ⟨hf, hlayer, hname⟩ => ?_⟩
  obtain ⟨g, hg⟩ := Option.isSome_iff_exists.1 (isSome_first?.2 ⟨f, hf, hlayer, hname⟩)
  obtain ⟨hmem, hlayer', hname'⟩ := first?_eq_some hg
  have hplace : place g = place f := Prod.ext (hlayer'.trans hlayer.symm) (hname'.trans hname.symm)
  rw [hg, List.inj_on_of_nodup_map h hmem hf hplace]

theorem first?_of_perm (h : (fs.map place).Nodup) (hperm : gs.Perm fs) (layer : Origin) (name : String) :
    first? layer name gs = first? layer name fs := by
  have hgs : (gs.map place).Nodup := (hperm.map place).nodup_iff.2 h
  ext f
  rw [first?_eq_some_iff hgs, first?_eq_some_iff h, hperm.mem_iff]

theorem Holds.answers (h : Holds n fs) (hgs : Layered gs) (hplaces : ((fs ++ gs).map place).Nodup) :
    n.answers gs = gs.map fun _ => .ok () := by
  induction gs generalizing n fs with
  | nil => rfl
  | cons g gs ih =>
    have hcons := List.forall_mem_cons.1 hgs
    have hg : (n.insert g).1 = .ok () := by
      cases hanswer : (n.insert g).1 with
      | ok => rfl
      | error e =>
        obtain ⟨-, ⟨g', hg', hlayer, hname⟩, -⟩ := (h.insert_eq_error_iff hcons.1 e).1 hanswer
        rw [List.map_append, List.nodup_append] at hplaces
        exact absurd (Prod.ext hlayer hname)
          (hplaces.2.2 _ (List.mem_map_of_mem hg') (place g) (List.mem_map_of_mem List.mem_cons_self))
    rw [NativeTable.answers, List.map_cons, hg, ih (h.insert hcons.1) hcons.2 (by simpa using hplaces)]

/-- A function whose place is free is put into the table, a shared one if there are no others. -/
theorem Holds.insert_eq_put (h : Holds n fs) (hf : f.origin ≠ .compiled) (hplaces : ((fs ++ [f]).map place).Nodup)
    (hshared : f.origin = .shared → ∀ g ∈ fs, g.origin = .shared) : n.insert f = (.ok (), n.put f) := by
  have hnew (layer : Origin) (hlayer : f.origin = layer) : ¬(first? layer f.name fs).isSome := by
    rw [isSome_first?]
    rintro ⟨g, hg, hglayer, hname⟩
    rw [List.map_append, List.nodup_append] at hplaces
    exact hplaces.2.2 _ (List.mem_map_of_mem hg) (place f) (List.mem_map_of_mem List.mem_cons_self)
      (Prod.ext (hglayer.trans hlayer.symm) hname)
  cases hlayer : f.origin with
  | compiled => exact absurd hlayer hf
  | object => rw [h.insert_object hlayer, if_neg (hnew _ hlayer)]
  | shared =>
    have hobject : ¬(first? .object f.name fs).isSome := by
      rw [isSome_first?]
      rintro ⟨g, hg, hglayer, -⟩
      cases (hshared hlayer g hg).symm.trans hglayer
    rw [h.insert_shared hlayer, if_neg hobject, if_neg (hnew _ hlayer)]

/-- A layer is put into the table, the shared one first. -/
theorem Holds.after_eq_foldl_put (layer : Origin) (h : Holds n fs) (hlayer : layer ≠ .compiled)
    (hgs : ∀ g ∈ gs, g.origin = layer) (hplaces : ((fs ++ gs).map place).Nodup)
    (hshared : layer = .shared → ∀ g ∈ fs, g.origin = .shared) : n.after gs = gs.foldl put n := by
  induction gs generalizing n fs with
  | nil => rfl
  | cons g gs ih =>
    obtain ⟨hg, hrest⟩ := List.forall_mem_cons.1 hgs
    have hsplit : fs ++ g :: gs = fs ++ [g] ++ gs := by simp
    have hput : n.insert g = (.ok (), n.put g) := by
      rw [hsplit, List.map_append] at hplaces
      exact h.insert_eq_put (hg ▸ hlayer) hplaces.of_append_left (hg ▸ hshared)
    have hnext : Holds (n.put g) (fs ++ [g]) := by
      have hinsert := h.insert (f := g) (hg ▸ hlayer)
      rwa [hput] at hinsert
    have hafter : n.after (g :: gs) = (n.put g).after gs := by
      rw [NativeTable.after, List.foldl_cons, hput]
      rfl
    rw [hafter, List.foldl_cons]
    refine ih hnext hrest (hsplit ▸ hplaces) fun hl g' hg' => ?_
    rcases List.mem_append.1 hg' with hg' | hg'
    · exact hshared hl g' hg'
    · exact List.mem_singleton.1 hg' ▸ hg.trans hl

/-! ## The two rules -/

/-- **The order of registrations in two layers does not matter.**  A registration that is refused leaves a table as it
was.  A table holds of each name the first function of the object type, or else the first shared one, and nothing else.
If no name comes twice in a layer, then nothing is refused, and the table is the same in any order. -/
theorem after_layers (hfs : Layered fs) :
    let n := empty.after fs
    (∀ (m : NativeTable k t) f e, (m.insert f).1 = .error e → (m.insert f).2 = m) ∧
    (∀ name, n.get? name = (first? .object name fs).or (first? .shared name fs)) ∧
    n.size = (fs.map NamedFunction.name).dedup.length ∧ n.names.Pairwise (· < ·) ∧
    ((fs.map place).Nodup → ∀ gs, gs.Perm fs → empty.answers gs = gs.map (fun _ => .ok ()) ∧ empty.after gs = n) := by
  intro n
  have hn : Holds n fs := holds_empty.after hfs
  refine ⟨fun _ _ _ => insert_of_error, hn, hn.size hfs, n.functions.keys_sorted, fun hplaces gs hperm => ?_⟩
  have hgs : Layered gs := fun g hg => hfs g (hperm.mem_iff.1 hg)
  refine ⟨holds_empty.answers hgs ((hperm.map place).nodup_iff.2 hplaces), ?_⟩
  exact (holds_empty.after hgs).eq hn (first?_of_perm hplaces hperm .object) (first?_of_perm hplaces hperm .shared)

/-- A shared function is shadowed before and behind the one that shadows it. -/
theorem after_layers_shadowed :
    let f (layer : Origin) (name : String) (x : Float32) : NamedFunction .float .muon := ⟨name, layer, fun _ _ => x⟩
    let fs := [f .shared "x" 1, f .object "y" 2, f .object "x" 3, f .shared "z" 4, f .shared "y" 5]
    let n := empty.after fs
    Layered fs ∧ (fs.map place).Nodup ∧ n.get? "x" = some (f .object "x" 3) ∧ n.size = 3 ∧
      empty.answers fs.reverse = [.ok (), .ok (), .ok (), .ok (), .ok ()] ∧ empty.after fs.reverse = n ∧
      ((n.insert (f .object "x" 6)).1 = .error ⟨"x", .float, .muon⟩ ∧ (n.insert (f .object "x" 6)).2 = n) := by
  intro f fs n
  have hfs : Layered fs := by simp [fs, f, Layered]
  have hplaces : (fs.map place).Nodup := by decide +kernel
  have hrefused : (n.insert (f .object "x" 6)).1 = .error ⟨"x", .float, .muon⟩ := by decide +kernel
  obtain ⟨hframe, hget, hsize, -, hperm⟩ := after_layers hfs
  obtain ⟨hanswers, hafter⟩ := hperm hplaces _ (List.reverse_perm fs)
  exact ⟨hfs, hplaces, (hget "x").trans rfl, hsize.trans (by decide +kernel), hanswers, hafter, hrefused,
    hframe _ _ _ hrefused⟩

/-- **Which registrations are refused.**  A function of the object type is refused if there was one of its name before.
A shared function is refused if there was a shared one before and none of the object type: behind that, the table knows
no more of a first shared function. -/
theorem insert_refused_iff (hfs : Layered fs) (hf : f.origin ≠ .compiled) (e : DuplicateFunction) :
    ((empty.after fs).insert f).1 = .error e ↔ e = ⟨f.name, k, t.kind⟩ ∧
      (∃ g ∈ fs, g.origin = f.origin ∧ g.name = f.name) ∧
      (f.origin = .shared → ¬∃ g ∈ fs, g.origin = .object ∧ g.name = f.name) :=
  (holds_empty.after hfs).insert_eq_error_iff hf e

theorem insert_refused_object :
    let f (layer : Origin) (x : Float32) : NamedFunction .float .muon := ⟨"x", layer, fun _ _ => x⟩
    let fs := [f .object 1, f .shared 2]
    Layered fs ∧ ((empty.after fs).insert (f .object 3)).1 = .error ⟨"x", .float, .muon⟩ := by
  intro f fs
  have hfs : Layered fs := by simp [fs, f, Layered]
  exact ⟨hfs, (insert_refused_iff hfs (by decide) _).2 ⟨rfl, ⟨f .object 1, by simp [fs], rfl, rfl⟩, nofun⟩⟩

/-- **A second shared function of a name is taken** once a function of the object type shadows the first. -/
theorem shared_twice_accepted :
    let f (layer : Origin) (x : Float32) : NamedFunction .float .muon := ⟨"x", layer, fun _ _ => x⟩
    empty.answers [f .shared 1, f .object 2, f .shared 3] = [.ok (), .ok (), .ok ()] := by
  decide +kernel

end
end NativeTable

namespace Native

open NativeTable

theorem layered_layers (k : ReturnKind) (t : ObjectType) : Layered (sharedLayer k t ++ objectLayer k t) := by
  intro f hf
  rcases List.mem_append.1 hf with hf | hf
  · obtain ⟨g, -, rfl⟩ := List.mem_map.1 hf
    nofun
  · obtain ⟨g, -, rfl⟩ := List.mem_map.1 hf
    nofun

/-- **The native functions are registered without a refusal**, layer by layer, and make up the table. -/
theorem table_eq_after (k : ReturnKind) (t : ObjectType) :
    let fs := sharedLayer k t ++ objectLayer k t
    empty.answers fs = fs.map (fun _ => .ok ()) ∧ table k t = empty.after fs := by
  intro fs
  have hshared : ∀ f ∈ sharedLayer k t, f.origin = .shared := List.forall_mem_map.2 fun _ _ => rfl
  have hobject : ∀ f ∈ objectLayer k t, f.origin = .object := List.forall_mem_map.2 fun _ _ => rfl
  have hlayered : Layered fs := layered_layers k t
  have hplaces : (fs.map place).Nodup := by cases k <;> cases t <;> decide +kernel
  have hfirst : empty.after (sharedLayer k t) = (sharedLayer k t).foldl put empty := by
    rw [List.map_append] at hplaces
    exact holds_empty.after_eq_foldl_put .shared (by decide) hshared hplaces.of_append_left nofun
  have hholds : Holds (empty.after (sharedLayer k t)) (sharedLayer k t) :=
    holds_empty.after fun f hf => hlayered f (List.mem_append_left _ hf)
  have hafter : empty.after fs = (empty.after (sharedLayer k t)).after (objectLayer k t) := List.foldl_append
  refine ⟨holds_empty.answers hlayered hplaces, ?_⟩
  rw [hafter, hholds.after_eq_foldl_put .object (by decide) hobject hplaces nofun, hfirst]
  rfl

/-- **A native function of the object type comes before a shared one.** -/
theorem get?_table (k : ReturnKind) (t : ObjectType) (name : String) : (table k t).get? name =
    (((own k t).lookup name).map (⟨name, .object, ·⟩)).or
      (((shared t.candidate k).lookup name).map (⟨name, .shared, ·⟩)) := by
  have hholds := holds_empty.after (layered_layers k t) name
  rw [List.nil_append, first?_append, first?_append] at hholds
  rw [(table_eq_after k t).2, hholds]
  simp only [sharedLayer, objectLayer, first?_map, Option.none_or, Option.or_none, reduceCtorEq, if_true, if_false]

end Native
end FlatNtuple
