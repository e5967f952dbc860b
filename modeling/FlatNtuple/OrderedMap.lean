/-!
# Dictionaries in order of insertion

The keys of an `OrderedMap` stand in the order in which they were first inserted, each with the value inserted last.
`keys_insert` and `get?_insert` say what an insertion does to the two views, `keys` and `get?`; nothing else needs to
look at the list of entries.
-/
namespace FlatNtuple

/-- A function of the values of a list of entries acts on what is found there. -/
theorem lookup_map_snd {α β : Type} (f : α → β) (key : String) : ∀ l : List (String × α),
    (l.map fun e => (e.1, f e.2)).lookup key = (l.lookup key).map f
  | [] => rfl
  | e :: rest => by
    rw [List.map_cons, List.lookup_cons, List.lookup_cons, lookup_map_snd f key rest]
    cases key == e.1 <;> rfl

namespace OrderedMap

variable {α : Type}

/-- Replaces the value of a key where it stands, or adds the key at the end. -/
def put (key : String) (value : α) : List (String × α) → List (String × α)
  | [] => [(key, value)]
  | (k, v) :: rest => if k = key then (key, value) :: rest else (k, v) :: put key value rest

theorem map_fst_put (key : String) (value : α) : ∀ l : List (String × α),
    (put key value l).map Prod.fst =
      if key ∈ l.map Prod.fst then l.map Prod.fst else l.map Prod.fst ++ [key]
  | [] => by simp [put]
  | (k, v) :: rest => by
    by_cases h : k = key
    · simp [put, h]
    · have hne : ¬key = k := fun e => h e.symm
      simp only [put, if_neg h, List.map_cons, map_fst_put key value rest, List.mem_cons, hne, false_or]
      split <;> simp

theorem nodup_put {key : String} {value : α} {l : List (String × α)} (h : (l.map Prod.fst).Nodup) :
    ((put key value l).map Prod.fst).Nodup := by
  rw [map_fst_put]
  split
  · exact h
  · rename_i hk
    rw [List.nodup_append]
    exact ⟨h, by simp, fun a ha b hb e => by simp only [List.mem_singleton] at hb; exact hk (hb ▸ e ▸ ha)⟩

theorem lookup_put (key : String) (value : α) (k : String) : ∀ l : List (String × α),
    (put key value l).lookup k = if k = key then some value else l.lookup k
  | [] => by
    by_cases h : k = key
    · simp [put, h]
    · simp [put, List.lookup_cons, h, beq_eq_false_iff_ne.2 h]
  | (k', v) :: rest => by
    by_cases h : k' = key
    · subst h
      by_cases hk : k = k'
      · simp [put, hk]
      · simp [put, List.lookup_cons, hk, beq_eq_false_iff_ne.2 hk]
    · simp only [put, if_neg h, List.lookup_cons, lookup_put key value k rest]
      by_cases hk : k = k'
      · subst hk
        simp [h]
      · simp [beq_eq_false_iff_ne.2 hk]

end OrderedMap

/-- A dictionary with its keys in order of insertion. -/
structure OrderedMap (α : Type) where
  entries : List (String × α) := []
  nodup_keys : (entries.map Prod.fst).Nodup := by simp

namespace OrderedMap

variable {α : Type}

def empty : OrderedMap α := {}

instance : EmptyCollection (OrderedMap α) := ⟨empty⟩

instance : Inhabited (OrderedMap α) := ⟨empty⟩

def keys (m : OrderedMap α) : List String := m.entries.map Prod.fst

def get? (m : OrderedMap α) (key : String) : Option α := m.entries.lookup key

def contains (m : OrderedMap α) (key : String) : Bool := (m.get? key).isSome

def size (m : OrderedMap α) : Nat := m.entries.length

/-- Adds a key at the end, or gives a key that is there a new value. -/
def insert (m : OrderedMap α) (key : String) (value : α) : OrderedMap α :=
  ⟨put key value m.entries, nodup_put m.nodup_keys⟩

def insertAll (m : OrderedMap α) (l : List (String × α)) : OrderedMap α :=
  l.foldl (fun m e => m.insert e.1 e.2) m

def ofList (l : List (String × α)) : OrderedMap α := empty.insertAll l

@[simp] theorem keys_empty : (empty : OrderedMap α).keys = [] := rfl

@[simp] theorem get?_empty (k : String) : (empty : OrderedMap α).get? k = none := rfl

theorem keys_insert (m : OrderedMap α) (key : String) (value : α) :
    (m.insert key value).keys = if key ∈ m.keys then m.keys else m.keys ++ [key] :=
  map_fst_put key value m.entries

theorem get?_insert (m : OrderedMap α) (key : String) (value : α) (k : String) :
    (m.insert key value).get? k = if k = key then some value else m.get? k :=
  lookup_put key value k m.entries

theorem keys_nodup (m : OrderedMap α) : m.keys.Nodup := m.nodup_keys

theorem size_eq_length_keys (m : OrderedMap α) : m.size = m.keys.length := by
  simp [size, keys]

end OrderedMap
end FlatNtuple
