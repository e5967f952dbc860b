import Mathlib
import FlatNtuple.OrderedMap
import FlatNtuple.SortedMap
/-!
# What dictionaries hold

A list of entries with different keys is a function from keys to values.  So a dictionary in order of its keys is
determined by this function (`SortedMap.eq_of_get?`), and one in order of insertion is the list of its entries put into
it one after the other (`OrderedMap.entries_ofList`).
-/
namespace FlatNtuple

variable {α : Type}

theorem lookup_eq_none_iff_notMem {l : List (String × α)} {key : String} :
    l.lookup key = none ↔ key ∉ l.map Prod.fst := by
  rw [List.lookup_eq_none_iff, List.mem_map]
  constructor
  · rintro h ⟨e, he, rfl⟩
    simpa using h e he
  · intro h e he
    exact bne_iff_ne.2 fun hkey => h ⟨e, he, hkey.symm⟩

/-- With different keys, what is found under a key is what stands there. -/
theorem lookup_eq_some_iff_mem {l : List (String × α)} (h : (l.map Prod.fst).Nodup) {key : String} {value : α} :
    l.lookup key = some value ↔ (key, value) ∈ l := by
  induction l with
  | nil => simp
  | cons e l ih =>
    obtain ⟨k, v⟩ := e
    rw [List.map_cons, List.nodup_cons] at h
    rw [List.lookup_cons, List.mem_cons, ← ih h.2]
    by_cases hk : key = k
    · subst hk
      simp [lookup_eq_none_iff_notMem.2 h.1, eq_comm]
    · simp [hk, beq_eq_false_iff_ne.2 hk]

/-- What stands under a key is found among the entries whose keys pass a test that this one passes. -/
theorem lookup_filter (p : String → Bool) {key : String} (h : p key = true) : ∀ l : List (String × α),
    (l.filter fun e => p e.1).lookup key = l.lookup key
  | [] => rfl
  | e :: rest => by
    rw [List.filter_cons, List.lookup_cons]
    by_cases he : key = e.1
    · rw [if_pos (he ▸ h), List.lookup_cons, beq_iff_eq.2 he]
    · have hne : (key == e.1) = false := beq_eq_false_iff_ne.2 he
      rw [hne, ← lookup_filter p h rest]
      split
      · rw [List.lookup_cons, hne]
      · rfl

namespace SortedMap

variable {m m' : SortedMap α}

/-- **Dictionaries in order of their keys are the same if they hold the same.** -/
theorem eq_of_get? (h : ∀ key, m.get? key = m'.get? key) : m = m' := by
  have hmem (e : String × α) : e ∈ m.entries ↔ e ∈ m'.entries := by
    rw [← lookup_eq_some_iff_mem m.keys_nodup, ← lookup_eq_some_iff_mem m'.keys_nodup]
    exact (h e.1).congr_left
  have hperm : m.entries.Perm m'.entries :=
    (List.perm_ext_iff_of_nodup m.keys_nodup.of_map m'.keys_nodup.of_map).2 hmem
  have hentries : m.entries = m'.entries :=
    hperm.eq_of_pairwise (fun a b _ _ hab hba => absurd hba (String.lt_asymm hab)) m.sorted m'.sorted
  cases m
  cases m'
  cases hentries
  rfl

end SortedMap

namespace OrderedMap

variable {m : OrderedMap α}

theorem mem_entries_iff {key : String} {value : α} : (key, value) ∈ m.entries ↔ m.get? key = some value :=
  (lookup_eq_some_iff_mem m.nodup_keys).symm

theorem contains_eq (key : String) : m.contains key = decide (key ∈ m.keys) := by
  rw [contains, Bool.eq_iff_iff, decide_eq_true_iff, ← Option.ne_none_iff_isSome, get?, ne_eq,
    lookup_eq_none_iff_notMem, not_not]
  rfl

theorem put_of_notMem {key : String} {value : α} : ∀ {l : List (String × α)}, key ∉ l.map Prod.fst →
    put key value l = l ++ [(key, value)]
  | [], _ => rfl
  | (k, v) :: rest, h => by
    rw [List.map_cons, List.mem_cons, not_or] at h
    rw [put, if_neg (Ne.symm h.1), put_of_notMem h.2, List.cons_append]

/-- The value of a key that is there is replaced where it stands. -/
theorem put_of_mem {key : String} {value : α} : ∀ {l : List (String × α)}, key ∈ l.map Prod.fst →
    (l.map Prod.fst).Nodup → put key value l = l.map fun e => (e.1, if e.1 = key then value else e.2)
  | (k, v) :: rest, hmem, hnodup => by
    rw [List.map_cons, List.nodup_cons] at hnodup
    rw [put, List.map_cons]
    by_cases hk : k = key
    · subst hk
      have hrest : ∀ e ∈ rest, (e.1, if e.1 = k then value else e.2) = e := by
        intro e he
        have hmem' : e.1 ∈ rest.map Prod.fst := List.mem_map_of_mem he
        have hne : e.1 ≠ k := fun heq => hnodup.1 (heq ▸ hmem')
        rw [if_neg hne]
      rw [if_pos rfl, if_pos rfl, List.map_congr_left hrest, List.map_id']
    · have hmem' : key ∈ rest.map Prod.fst := (List.mem_cons.1 hmem).resolve_left (Ne.symm hk)
      rw [if_neg hk, if_neg hk, put_of_mem hmem' hnodup.2]

/-- **A list of entries put into a dictionary**: the keys that are there keep their places, with the values of the list
if it has any for them, and the other keys of the list come behind them in their order. -/
theorem entries_insertAll_eq {l : List (String × α)} (h : (l.map Prod.fst).Nodup) : (m.insertAll l).entries =
    (m.entries.map fun e => (e.1, (l.lookup e.1).getD e.2)) ++ l.filter (·.1 ∉ m.keys) := by
  induction l generalizing m with
  | nil => simp [insertAll]
  | cons e l ih =>
    obtain ⟨key, value⟩ := e
    rw [List.map_cons, List.nodup_cons] at h
    have hall : (m.insertAll ((key, value) :: l)).entries = ((m.insert key value).insertAll l).entries := rfl
    have hnone : l.lookup key = none := lookup_eq_none_iff_notMem.2 h.1
    rw [hall, ih h.2, keys_insert, List.filter_cons]
    by_cases hkey : key ∈ m.keys
    · have hentries : (m.insert key value).entries = m.entries.map fun e => (e.1, if e.1 = key then value else e.2) :=
        put_of_mem hkey m.nodup_keys
      rw [if_pos hkey, if_neg (by simpa using hkey), hentries, List.map_map]
      congr 1
      refine List.map_congr_left fun e _ => ?_
      by_cases he : e.1 = key
      · simp [he, hnone]
      · simp [he, List.lookup_cons, beq_eq_false_iff_ne.2 he]
    · have hentries : (m.insert key value).entries = m.entries ++ [(key, value)] := put_of_notMem hkey
      have hkept : ∀ e ∈ m.entries, (e.1, (l.lookup e.1).getD e.2) =
          (e.1, (((key, value) :: l).lookup e.1).getD e.2) := by
        intro e he
        have hne : e.1 ≠ key := fun heq => hkey (heq ▸ List.mem_map_of_mem he)
        rw [List.lookup_cons, beq_eq_false_iff_ne.2 hne]
      have hnew : l.filter (·.1 ∉ m.keys ++ [key]) = l.filter (·.1 ∉ m.keys) := by
        refine List.filter_congr fun e he => ?_
        have hmem : e.1 ∈ l.map Prod.fst := List.mem_map_of_mem he
        have hne : e.1 ≠ key := fun heq => h.1 (heq ▸ hmem)
        simp [hne]
      rw [if_neg hkey, if_pos (by simpa using hkey), hentries, hnew, List.map_append, List.map_congr_left hkept]
      simp [hnone]

/-- New keys are added at the end, in their order. -/
theorem entries_insertAll {l : List (String × α)} (h : (m.keys ++ l.map Prod.fst).Nodup) :
    (m.insertAll l).entries = m.entries ++ l := by
  obtain ⟨-, hl, hdisjoint⟩ := List.nodup_append.1 h
  have hkept : ∀ e ∈ m.entries, (e.1, (l.lookup e.1).getD e.2) = e := by
    intro e he
    have hnone : l.lookup e.1 = none := lookup_eq_none_iff_notMem.2 fun hmem =>
      hdisjoint e.1 (List.mem_map_of_mem he) e.1 hmem rfl
    rw [hnone, Option.getD_none]
  have hnew : ∀ e ∈ l, decide (e.1 ∉ m.keys) = true := by
    intro e he
    exact decide_eq_true fun hmem => hdisjoint e.1 hmem e.1 (List.mem_map_of_mem he) rfl
  rw [entries_insertAll_eq hl, List.map_congr_left hkept, List.map_id', List.filter_eq_self.2 hnew]

/-- **A list of entries with different keys is kept as it is.** -/
theorem entries_ofList {l : List (String × α)} (h : (l.map Prod.fst).Nodup) : (ofList l).entries = l :=
  entries_insertAll (m := empty) h

/-- What is inserted later takes the place of what is there. -/
theorem get?_insertAll {l : List (String × α)} (h : (l.map Prod.fst).Nodup) (key : String) :
    (m.insertAll l).get? key = (l.lookup key).or (m.get? key) := by
  induction l generalizing m with
  | nil => rfl
  | cons e l ih =>
    obtain ⟨k, v⟩ := e
    rw [List.map_cons, List.nodup_cons] at h
    have hall : (m.insertAll ((k, v) :: l)).get? key = (l.lookup key).or ((m.insert k v).get? key) := ih h.2
    rw [hall, get?_insert, List.lookup_cons]
    by_cases hk : key = k
    · subst hk
      simp [lookup_eq_none_iff_notMem.2 h.1]
    · simp [hk, beq_eq_false_iff_ne.2 hk]

/-! ### Dictionaries put into dictionaries -/

theorem keys_insertAll {l : List (String × α)} (h : (l.map Prod.fst).Nodup) :
    (m.insertAll l).keys = m.keys ++ (l.map Prod.fst).filter (· ∉ m.keys) := by
  rw [keys, entries_insertAll_eq h, List.map_append, List.map_map, List.filter_map]
  rfl

/-- **Dictionaries in order of insertion are the same if they hold the same in the same order.** -/
theorem eq_of_keys {m m' : OrderedMap α} (hkeys : m.keys = m'.keys) (hget : ∀ key, m.get? key = m'.get? key) :
    m = m' := by
  have hentries (m : OrderedMap α) : m.entries.map (fun e => (e.1, some e.2)) = m.keys.map fun k => (k, m.get? k) := by
    rw [keys, List.map_map]
    exact List.map_congr_left fun e he => congrArg (Prod.mk e.1) (mem_entries_iff.1 he).symm
  have hall : m.entries.map (fun e => (e.1, some e.2)) = m'.entries.map fun e => (e.1, some e.2) := by
    rw [hentries, hentries, hkeys]
    exact List.map_congr_left fun k _ => congrArg (Prod.mk k) (hget k)
  have hinjective : Function.Injective fun e : String × α => (e.1, some e.2) := by
    rintro ⟨k, v⟩ ⟨k', v'⟩ h
    simpa using h
  cases m
  cases m'
  cases hinjective.list_map hall
  rfl

theorem insertAll_entries_empty (m : OrderedMap α) : (empty : OrderedMap α).insertAll m.entries = m := by
  refine eq_of_keys ?_ fun key => ?_
  · rw [keys_insertAll m.nodup_keys, keys_empty, List.nil_append]
    exact List.filter_eq_self.2 fun key _ => decide_eq_true List.not_mem_nil
  · rw [get?_insertAll m.nodup_keys, get?_empty, Option.or_none]
    rfl

theorem insertAll_entries_self (m : OrderedMap α) : m.insertAll m.entries = m := by
  refine eq_of_keys ?_ fun key => ?_
  · have hnone : (m.entries.map Prod.fst).filter (· ∉ m.keys) = [] :=
      List.filter_eq_nil_iff.2 fun key hkey => not_not.2 hkey ∘ of_decide_eq_true
    rw [keys_insertAll m.nodup_keys, hnone, List.append_nil]
  · rw [get?_insertAll m.nodup_keys]
    exact Option.or_self

theorem insertAll_insertAll (m₁ m₂ m₃ : OrderedMap α) :
    (m₁.insertAll m₂.entries).insertAll m₃.entries = m₁.insertAll (m₂.insertAll m₃.entries).entries := by
  have hkeys (m m' : OrderedMap α) : (m.insertAll m'.entries).keys = m.keys ++ m'.keys.filter (· ∉ m.keys) :=
    keys_insertAll m'.nodup_keys
  have hget (m m' : OrderedMap α) (key : String) :
      (m.insertAll m'.entries).get? key = (m'.get? key).or (m.get? key) := get?_insertAll m'.nodup_keys key
  refine eq_of_keys ?_ fun key => ?_
  · -- A key of the third that is new to both of the others is new to their union, and the other way around.
    simp only [hkeys, List.filter_append, List.filter_filter, List.append_assoc]
    congr 2
    refine List.filter_congr fun key _ => ?_
    simp only [List.mem_append, List.mem_filter, decide_eq_true_eq, ← Bool.decide_and, decide_eq_decide]
    tauto
  · rw [hget, hget, hget, hget, Option.or_assoc]

/-! ### Dictionaries changed under some keys -/

/-- A dictionary has become another one by changes under some keys.  What stands under other keys is as it was, in its
order.  Keys that were there have kept their places, and new ones stand behind them. -/
structure ChangedOnly (changed : List String) (m m' : OrderedMap α) : Prop where
  entries : (m'.entries.filter fun e => e.1 ∉ changed) = m.entries.filter fun e => e.1 ∉ changed
  keys : m.keys <+: m'.keys

namespace ChangedOnly

variable {changed : List String} {m m' m'' : OrderedMap α}

theorem refl (changed : List String) (m : OrderedMap α) : ChangedOnly changed m m := ⟨rfl, List.prefix_rfl⟩

theorem trans (h : ChangedOnly changed m m') (h' : ChangedOnly changed m' m'') : ChangedOnly changed m m'' :=
  ⟨h'.entries.trans h.entries, h.keys.trans h'.keys⟩

theorem insert {key : String} (hkey : key ∈ changed) (m : OrderedMap α) (value : α) :
    ChangedOnly changed m (m.insert key value) := by
  refine ⟨?_, ?_⟩
  · change (put key value m.entries).filter _ = _
    induction m.entries with
    | nil => simp [put, hkey]
    | cons e l ih =>
      rw [put]
      split
      · rename_i he
        simp [he, hkey]
      · simp only [List.filter_cons, ih]
  · rw [keys_insert]
    split
    · exact List.prefix_rfl
    · exact List.prefix_append _ _

theorem get?_eq (h : ChangedOnly changed m m') {key : String} (hkey : key ∉ changed) : m'.get? key = m.get? key := by
  have hfilter (m : OrderedMap α) : m.get? key = (m.entries.filter fun e => e.1 ∉ changed).lookup key :=
    (lookup_filter (fun k => k ∉ changed) (decide_eq_true hkey) m.entries).symm
  rw [hfilter, hfilter, h.entries]

end ChangedOnly

end OrderedMap
end FlatNtuple
