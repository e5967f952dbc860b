/-!
# Dictionaries in order of their keys

The keys of a `SortedMap` increase strictly, so a dictionary is determined by what it holds and not by how it came
about.  `get?_insert` says what an insertion does, and `keys_sorted` what order the keys come in.
-/
namespace FlatNtuple
namespace SortedMap

variable {α : Type}

def Sorted (l : List (String × α)) : Prop := l.Pairwise (fun a b => a.1 < b.1)

/-- Puts a key in its place, or gives it a new value where it stands. -/
def put (key : String) (value : α) : List (String × α) → List (String × α)
  | [] => [(key, value)]
  | (k, v) :: rest =>
    if key < k then (key, value) :: (k, v) :: rest
    else if k = key then (key, value) :: rest
    else (k, v) :: put key value rest

theorem mem_put {key : String} {value : α} {e : String × α} : ∀ {l : List (String × α)},
    e ∈ put key value l → e = (key, value) ∨ e ∈ l
  | [], h => by simp only [put, List.mem_singleton] at h; exact .inl h
  | (k, v) :: rest, h => by
    simp only [put] at h
    split at h
    · simpa using h
    · split at h
      · rcases List.mem_cons.1 h with h | h
        · exact .inl h
        · exact .inr (List.mem_cons_of_mem _ h)
      · rcases List.mem_cons.1 h with h | h
        · exact .inr (h ▸ List.mem_cons_self)
        · rcases mem_put h with h | h
          · exact .inl h
          · exact .inr (List.mem_cons_of_mem _ h)

theorem lt_of_not_lt_of_ne {a b : String} (h : ¬a < b) (hne : b ≠ a) : b < a :=
  Classical.byContradiction fun hn => hne (String.le_antisymm h hn)

theorem sorted_put {key : String} {value : α} : ∀ {l : List (String × α)}, Sorted l → Sorted (put key value l)
  | [], _ => by simp [put, Sorted]
  | (k, v) :: rest, h => by
    have hr := List.pairwise_cons.1 h
    simp only [put]
    split
    · rename_i hlt
      exact List.pairwise_cons.2 ⟨fun e he => by
        rcases List.mem_cons.1 he with rfl | he
        · exact hlt
        · exact String.lt_trans hlt (hr.1 e he), h⟩
    · split
      · rename_i heq
        subst heq
        exact List.pairwise_cons.2 ⟨hr.1, hr.2⟩
      · rename_i hlt hne
        refine List.pairwise_cons.2 ⟨fun e he => ?_, sorted_put hr.2⟩
        rcases mem_put he with rfl | he
        · exact lt_of_not_lt_of_ne hlt hne
        · exact hr.1 e he

theorem lookup_put (key : String) (value : α) (k : String) : ∀ l : List (String × α),
    (put key value l).lookup k = if k = key then some value else l.lookup k
  | [] => by
    by_cases h : k = key
    · simp [put, h]
    · simp [put, List.lookup_cons, h, beq_eq_false_iff_ne.2 h]
  | (k', v) :: rest => by
    simp only [put]
    split
    · by_cases h : k = key
      · simp [h]
      · simp [List.lookup_cons, h, beq_eq_false_iff_ne.2 h]
    · split
      · rename_i _ heq
        subst heq
        by_cases h : k = k'
        · simp [h]
        · simp [List.lookup_cons, h, beq_eq_false_iff_ne.2 h]
      · rename_i _ hne
        simp only [List.lookup_cons, lookup_put key value k rest]
        by_cases h : k = k'
        · subst h
          simp [hne]
        · simp [beq_eq_false_iff_ne.2 h]

end SortedMap

/-- A dictionary with its keys in increasing order. -/
structure SortedMap (α : Type) where
  entries : List (String × α) := []
  sorted : SortedMap.Sorted entries := by simp [SortedMap.Sorted]

namespace SortedMap

variable {α : Type}

def empty : SortedMap α := {}

instance : EmptyCollection (SortedMap α) := ⟨empty⟩

instance : Inhabited (SortedMap α) := ⟨empty⟩

def keys (m : SortedMap α) : List String := m.entries.map Prod.fst

def get? (m : SortedMap α) (key : String) : Option α := m.entries.lookup key

def contains (m : SortedMap α) (key : String) : Bool := (m.get? key).isSome

def size (m : SortedMap α) : Nat := m.entries.length

def insert (m : SortedMap α) (key : String) (value : α) : SortedMap α :=
  ⟨put key value m.entries, sorted_put m.sorted⟩

@[simp] theorem get?_empty (k : String) : (empty : SortedMap α).get? k = none := rfl

theorem get?_insert (m : SortedMap α) (key : String) (value : α) (k : String) :
    (m.insert key value).get? k = if k = key then some value else m.get? k :=
  lookup_put key value k m.entries

theorem keys_sorted (m : SortedMap α) : m.keys.Pairwise (· < ·) := List.pairwise_map.2 m.sorted

theorem mem_keys {m : SortedMap α} {key : String} : key ∈ m.keys ↔ (m.get? key).isSome := by
  simp [keys, get?, List.lookup_isSome_iff]

theorem keys_nodup (m : SortedMap α) : m.keys.Nodup := m.keys_sorted.imp String.ne_of_lt

theorem size_eq_length_keys (m : SortedMap α) : m.size = m.keys.length := by simp [size, keys]

end SortedMap
end FlatNtuple
