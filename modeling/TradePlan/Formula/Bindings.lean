import TradePlan.Text.Case

/-!
# Values of variables

A finite map from names to numbers in which the letter case of names does not count.

    (b.insert m x).get? n = if foldCase n = foldCase m then some x else b.get? n   (get?_insert)
-/

namespace TradePlan

/-! ## Algorithm -/

/-- Puts a value under a key in its place, or at the end if the key is new. -/
def putEntry (key : String) (value : Float) : List (String × Float) → List (String × Float)
  | [] => [(key, value)]
  | (other, old) :: rest =>
    if other = key then (key, value) :: rest else (other, old) :: putEntry key value rest

theorem mem_keys_putEntry {key name : String} {value : Float} {entries : List (String × Float)}
    (h : name ∈ (putEntry key value entries).map Prod.fst) :
    name = key ∨ name ∈ entries.map Prod.fst := by
  induction entries with
  | nil =>
    rw [putEntry] at h
    simpa using h
  | cons entry rest ih =>
    obtain ⟨other, old⟩ := entry
    rw [putEntry] at h
    split at h
    · simp only [List.map_cons, List.mem_cons] at h ⊢
      rcases h with h | h
      · exact .inl h
      · exact .inr (.inr h)
    · simp only [List.map_cons, List.mem_cons] at h ⊢
      rcases h with h | h
      · exact .inr (.inl h)
      · rcases ih h with h | h
        · exact .inl h
        · exact .inr (.inr h)

theorem nodup_keys_putEntry (key : String) (value : Float) {entries : List (String × Float)}
    (h : (entries.map Prod.fst).Nodup) : ((putEntry key value entries).map Prod.fst).Nodup := by
  induction entries with
  | nil => simp [putEntry]
  | cons entry rest ih =>
    obtain ⟨other, old⟩ := entry
    simp only [List.map_cons, List.nodup_cons] at h
    rw [putEntry]
    split
    · next same =>
      subst same
      simpa using h
    · next differs =>
      rw [List.map_cons, List.nodup_cons]
      refine ⟨fun mem => ?_, ih h.2⟩
      rcases mem_keys_putEntry mem with same | mem
      · exact differs same
      · exact h.1 mem

/-- Values under names in small letters, each name once. -/
structure Bindings where
  entries : List (String × Float)
  nodup : (entries.map Prod.fst).Nodup

namespace Bindings

def empty : Bindings := ⟨[], List.nodup_nil⟩

def get? (bindings : Bindings) (name : String) : Option Float :=
  bindings.entries.lookup (Text.foldCase name)

def contains (bindings : Bindings) (name : String) : Bool := (bindings.get? name).isSome

/-- Gives a name a value, in place of the one it had. -/
def insert (bindings : Bindings) (name : String) (value : Float) : Bindings where
  entries := putEntry (Text.foldCase name) value bindings.entries
  nodup := nodup_keys_putEntry _ _ bindings.nodup

def size (bindings : Bindings) : Nat := bindings.entries.length

def ofList (values : List (String × Float)) : Bindings :=
  values.foldl (fun bindings (name, value) => bindings.insert name value) empty

/-! ## Lemmas -/

theorem lookup_putEntry (key name : String) (value : Float) (entries : List (String × Float)) :
    (putEntry key value entries).lookup name =
      if name = key then some value else entries.lookup name := by
  induction entries with
  | nil => by_cases h : name = key <;> grind [putEntry]
  | cons entry rest ih => grind [putEntry]

theorem get?_insert (bindings : Bindings) (name other : String) (value : Float) :
    (bindings.insert name value).get? other =
      if Text.foldCase other = Text.foldCase name then some value else bindings.get? other :=
  lookup_putEntry _ _ _ _

end Bindings

end TradePlan
