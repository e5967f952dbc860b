import Mathlib
import FlatNtuple.Function.Library
/-!
# Looking functions up again

A library answers a lookup as if it had never been asked before (`memo_transparent`).  What carries it through a run of
lookups is `Remembers`: the memo holds of each name asked for the function that the name is compiled to, and of no other
name anything.  So the memo says which names were asked for and nothing of their order.
-/
namespace FlatNtuple
namespace FunctionLibrary

variable {k : ReturnKind} {t : ObjectType}

/-- The library after some lookups. -/
def after (l : FunctionLibrary k t) (names : List String) : FunctionLibrary k t :=
  names.foldl (fun l name => (l.get name).2) l

/-- The answers to some lookups, one after the other. -/
def answers (l : FunctionLibrary k t) : List String → List (Except LibraryError (NamedFunction k t))
  | [] => []
  | name :: rest => (l.get name).1 :: (l.get name).2.answers rest

/-- A name that is read as an expression, and is one. -/
def compiles (l : FunctionLibrary k t) (name : String) : Bool :=
  name ≠ "" && !l.isNative name && (l.compiler.compile k t name).isOk

/-- The function that a name is compiled to.  The names of native functions are not compiled. -/
def compiled? (c : CompilerConfig) (k : ReturnKind) (t : ObjectType) (name : String) : Option (NamedFunction k t) :=
  if name = "" ∨ ((Native.table k t).get? name).isSome then none
  else match c.compile k t name with
    | .ok f => some f.toFunction
    | .error _ => none

/-- The memo holds the functions of the names asked for that are compiled, each under its own name. -/
structure Remembers (l : FunctionLibrary k t) (c : CompilerConfig) (names : List String) : Prop where
  compiler : l.compiler = c
  memo (name : String) : l.memo.get? name = if name ∈ names then compiled? c k t name else none

section
variable {l l' : FunctionLibrary k t} {c : CompilerConfig} {names : List String} {name : String}

theorem remembers_nil (c : CompilerConfig) : Remembers ({ compiler := c } : FunctionLibrary k t) c [] :=
  ⟨rfl, fun _ => rfl⟩

/-- **A lookup yields what the name stands for**, and adds the name to those remembered. -/
theorem Remembers.get (h : Remembers l c names) (name : String) :
    (l.get name).1 = l.resolve name ∧ Remembers (l.get name).2 c (names ++ [name]) := by
  obtain ⟨rfl, hmemo⟩ := h
  -- Nothing is added to the memo where the name is not compiled or was asked for before.
  have keep (hname : l.memo.get? name = compiled? l.compiler k t name) : Remembers l l.compiler (names ++ [name]) := by
    refine ⟨rfl, fun n => ?_⟩
    by_cases hn : n = name
    · simp [hn, hname]
    · simp [hmemo, hn]
  have hget := hmemo name
  unfold FunctionLibrary.get resolve
  by_cases hempty : name = ""
  · have hnone : compiled? l.compiler k t name = none := if_pos (.inl hempty)
    rw [if_pos hempty, if_pos hempty]
    exact ⟨rfl, keep (by rw [hget, hnone, ite_self])⟩
  rw [if_neg hempty, if_neg hempty]
  cases hnative : l.native.get? name with
  | some f =>
    have hnone : compiled? l.compiler k t name = none := if_pos (.inr (Option.isSome_of_eq_some hnative))
    exact ⟨rfl, keep (by rw [hget, hnone, ite_self])⟩
  | none =>
    have hcompiled : compiled? l.compiler k t name = match l.compiler.compile k t name with
        | .ok f => some f.toFunction
        | .error _ => none := by
      refine if_neg (not_or.2 ⟨hempty, ?_⟩)
      rw [show (Native.table k t).get? name = none from hnative]
      simp
    cases hcompile : l.compiler.compile k t name with
    | error e =>
      rw [hcompile] at hcompiled
      have hmiss : l.memo.get? name = none := by rw [hget, hcompiled, ite_self]
      simp only [hmiss]
      exact ⟨trivial, keep (hmiss.trans hcompiled.symm)⟩
    | ok f =>
      rw [hcompile] at hcompiled
      rw [hcompiled] at hget
      by_cases hmem : name ∈ names
      · rw [if_pos hmem] at hget
        simp only [hget]
        exact ⟨trivial, keep (hget.trans hcompiled.symm)⟩
      · rw [if_neg hmem] at hget
        simp only [hget]
        refine ⟨trivial, rfl, fun n => ?_⟩
        rw [SortedMap.get?_insert, hmemo]
        by_cases hn : n = name
        · simp [hn, hcompiled]
        · simp [hn]

theorem Remembers.after (h : Remembers l c names) (asked : List String) :
    Remembers (l.after asked) c (names ++ asked) := by
  induction asked generalizing l names with
  | nil => rwa [List.append_nil]
  | cons name asked ih =>
    rw [← List.singleton_append, ← List.append_assoc]
    exact ih (h.get name).2

/-- Two libraries of one compiler answer alike, whatever they were asked before. -/
theorem Remembers.get_eq {names' : List String} (h : Remembers l c names) (h' : Remembers l' c names') (name : String) :
    (l.get name).1 = (l'.get name).1 := by
  rw [(h.get name).1, (h'.get name).1, resolve, resolve, h.compiler, h'.compiler]
  rfl

theorem Remembers.answers_eq {names' : List String} (h : Remembers l c names) (h' : Remembers l' c names')
    (asked : List String) : l.answers asked = asked.map fun name => (l'.get name).1 := by
  induction asked generalizing l names with
  | nil => rfl
  | cons name asked ih => rw [answers, List.map_cons, h.get_eq h', ih (h.get name).2]

theorem isSome_compiled? (h : l.compiler = c) : (compiled? c k t name).isSome = l.compiles name := by
  subst h
  unfold compiled? compiles isNative NativeTable.contains SortedMap.contains native
  change _ = (name ≠ "" && !((Native.table k t).get? name).isSome && _)
  cases (Native.table k t).get? name <;> cases l.compiler.compile k t name <;>
    by_cases hempty : name = "" <;> simp [hempty, Except.isOk, Except.toBool]

/-- As many functions are remembered as there were different names that are compiled. -/
theorem Remembers.compiledCount (h : Remembers l c names) :
    l.compiledCount = (names.dedup.filter l.compiles).length := by
  have hperm : l.memo.keys.Perm (names.dedup.filter l.compiles) := by
    refine (List.perm_ext_iff_of_nodup l.memo.keys_nodup (names.nodup_dedup.filter _)).2 fun name => ?_
    rw [SortedMap.mem_keys, h.memo, List.mem_filter, List.mem_dedup, ← isSome_compiled? h.compiler]
    split <;> simp_all
  rw [FunctionLibrary.compiledCount, SortedMap.size_eq_length_keys, hperm.length_eq]

theorem get?_foldl_put_eq_none {n : NativeTable k t} {fs : List (NamedFunction k t)} :
    (fs.foldl NativeTable.put n).get? name = none ↔ n.get? name = none ∧ ∀ f ∈ fs, f.name ≠ name := by
  induction fs generalizing n with
  | nil => simp
  | cons f fs ih =>
    rw [List.foldl_cons, ih, NativeTable.get?_put, List.forall_mem_cons]
    by_cases h : name = f.name
    · simp [h]
    · simp [h, Ne.symm h]

theorem native_ne_empty {f : NamedFunction k t} (h : (Native.table k t).get? name = some f) : name ≠ "" := by
  rintro rfl
  have hshared : ∀ g ∈ Native.shared t.candidate k, g.1 ≠ "" := by
    cases k <;> simp [Native.shared, Native.eventFloats]
  have hown : ∀ g ∈ Native.own k t, g.1 ≠ "" := by
    cases k <;> cases t <;> simp [Native.own]
  have hnone : (Native.table k t).get? "" = none := by
    refine get?_foldl_put_eq_none.2 ⟨get?_foldl_put_eq_none.2 ⟨rfl, fun g hg => ?_⟩, fun g hg => ?_⟩
    · obtain ⟨g', hg', rfl⟩ := List.mem_map.1 hg
      exact hshared g' hg'
    · obtain ⟨g', hg', rfl⟩ := List.mem_map.1 hg
      exact hown g' hg'
  cases hnone.symm.trans h

theorem get_native {f : NamedFunction k t} (h : (Native.table k t).get? name = some f) : l.get name = (.ok f, l) := by
  rw [FunctionLibrary.get, if_neg (native_ne_empty h), native, h]

theorem get_eq_emptyName_iff : (l.get name).1 = .error .emptyName ↔ name = "" := by
  unfold FunctionLibrary.get
  split
  · simp_all
  · rename_i hempty
    repeat' split
    all_goals simp [hempty]

/-- A lookup that fails leaves no trace. -/
theorem get_of_error {e : LibraryError} (h : (l.get name).1 = .error e) : (l.get name).2 = l := by
  unfold FunctionLibrary.get at h ⊢
  repeat' split at h
  all_goals simp_all

end

/-- **The memo of a library shows in no answer.**  After lookups of any names, each lookup is answered as a new library
answers it: empty names are refused, native names stand for the native functions and leave the library as it is, and so
does a failure.  What the library holds is counted by the names that are compiled. -/
theorem memo_transparent (c : CompilerConfig) (k : ReturnKind) (t : ObjectType) (names : List String) :
    let new : FunctionLibrary k t := { compiler := c }
    let l := new.after names
    new.answers names = names.map (fun name => (new.get name).1) ∧
    (∀ name, (l.get name).1 = (new.get name).1) ∧
    (∀ name, (l.get name).1 = .error .emptyName ↔ name = "") ∧
    (∀ name f, (Native.table k t).get? name = some f → l.get name = (.ok f, l)) ∧
    (∀ name e, (l.get name).1 = .error e → (l.get name).2 = l) ∧
    l.compiledCount = (names.dedup.filter new.compiles).length := by
  intro new l
  have hnew := remembers_nil (k := k) (t := t) c
  have hl : Remembers l c names := hnew.after names
  have hcompiles : l.compiles = new.compiles := by
    funext name
    rw [← isSome_compiled? hl.compiler, ← isSome_compiled? hnew.compiler]
  exact ⟨hnew.answers_eq hnew names, hl.get_eq hnew, fun _ => get_eq_emptyName_iff, fun _ _ => get_native,
    fun _ _ => get_of_error, hcompiles ▸ hl.compiledCount⟩

theorem memo_transparent_muon :
    let l := ({ compiler := {} } : FunctionLibrary .float .muon).after ["pt * 2", "", "SIP3D", "pt +", "pt * 2"]
    (∃ f, (Native.table .float .muon).get? "SIP3D" = some f ∧ l.get "SIP3D" = (.ok f, l)) ∧
    (∃ e, (l.get "pt +").1 = .error e ∧ (l.get "pt +").2 = l) ∧ l.compiledCount = 1 := by
  intro l
  obtain ⟨-, hget, -, hnative, herror, hcount⟩ :=
    memo_transparent {} .float .muon ["pt * 2", "", "SIP3D", "pt +", "pt * 2"]
  obtain ⟨f, hf⟩ : ∃ f, (Native.table .float .muon).get? "SIP3D" = some f :=
    Option.isSome_iff_exists.1 (by decide +kernel)
  obtain ⟨e, he⟩ : ∃ e, (({ compiler := {} } : FunctionLibrary .float .muon).get "pt +").1 = .error e :=
    ⟨_, by cbv⟩
  exact ⟨⟨f, hf, hnative _ f hf⟩, ⟨e, (hget _).trans he, herror _ e ((hget _).trans he)⟩,
    hcount.trans (by decide +kernel)⟩

end FunctionLibrary
end FlatNtuple
