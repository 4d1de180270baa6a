/-!
# Maps that remember the order of insertion

A new key goes to the end; writing a key again keeps its place.
-/

namespace ScriptTyping

structure OrderedMap (κ α : Type) where
  entries : List (κ × α) := []

namespace OrderedMap

variable {κ α : Type} [DecidableEq κ]

def empty : OrderedMap κ α := ⟨[]⟩

def find : List (κ × α) → κ → Option α
  | [], _ => none
  | (k, v) :: rest, key => if k = key then some v else find rest key

def put (key : κ) (value : α) : List (κ × α) → List (κ × α)
  | [] => [(key, value)]
  | (k, v) :: rest => if k = key then (key, value) :: rest else (k, v) :: put key value rest

def get? (m : OrderedMap κ α) (key : κ) : Option α := find m.entries key

def contains (m : OrderedMap κ α) (key : κ) : Bool := (m.get? key).isSome

def insert (m : OrderedMap κ α) (key : κ) (value : α) : OrderedMap κ α :=
  ⟨put key value m.entries⟩

def erase (m : OrderedMap κ α) (key : κ) : OrderedMap κ α :=
  ⟨m.entries.filter fun e => e.1 ≠ key⟩

def ofList (pairs : List (κ × α)) : OrderedMap κ α :=
  pairs.foldl (fun m p => m.insert p.1 p.2) empty

def keys (m : OrderedMap κ α) : List κ := m.entries.map (·.1)

def size (m : OrderedMap κ α) : Nat := m.entries.length

def isEmpty (m : OrderedMap κ α) : Bool := m.entries.isEmpty

/-! ## Reading after writing -/

theorem find_put_self (key : κ) (value : α) (es : List (κ × α)) :
    find (put key value es) key = some value := by
  induction es with
  | nil => simp [put, find]
  | cons e es ih => by_cases h : e.1 = key <;> simp [put, find, h, ih]

theorem find_put_of_ne {key other : κ} (h : key ≠ other) (value : α) (es : List (κ × α)) :
    find (put key value es) other = find es other := by
  induction es with
  | nil => simp [put, find, h]
  | cons e es ih =>
    by_cases he : e.1 = key
    · have : e.1 ≠ other := he ▸ h
      simp [put, find, he, h]
    · simp [put, find, he, ih]

@[simp] theorem get?_insert_self (m : OrderedMap κ α) (key : κ) (value : α) :
    (m.insert key value).get? key = some value :=
  find_put_self key value m.entries

theorem get?_insert_of_ne (m : OrderedMap κ α) {key other : κ} (h : key ≠ other) (value : α) :
    (m.insert key value).get? other = m.get? other :=
  find_put_of_ne h value m.entries

theorem get?_insert (m : OrderedMap κ α) (key other : κ) (value : α) :
    (m.insert key value).get? other = if key = other then some value else m.get? other := by
  split
  · rename_i h
    rw [← h, get?_insert_self]
  · rename_i h
    exact get?_insert_of_ne m h value

theorem get?_erase (m : OrderedMap κ α) (key other : κ) :
    (m.erase key).get? other = if key = other then none else m.get? other := by
  unfold erase get?
  induction m.entries with
  | nil => simp [find]
  | cons e es ih =>
    by_cases he : e.1 = key
    · rw [List.filter_cons_of_neg (by simp [he]), ih]
      by_cases hother : key = other <;> simp [find, he, hother]
    · rw [List.filter_cons_of_pos (by simp [he]), find, find, ih]
      by_cases hother : key = other
      · subst hother
        simp [he]
      · simp [hother]

/-! ## Maps of pairs -/

theorem get?_foldl_insert (pairs : List (κ × α)) (m : OrderedMap κ α) (key : κ) :
    (pairs.foldl (fun m p => m.insert p.1 p.2) m).get? key =
      ((ofList pairs).get? key).or (m.get? key) := by
  induction pairs generalizing m with
  | nil => simp [ofList, empty, get?, find]
  | cons p pairs ih =>
    rw [ofList, List.foldl_cons, List.foldl_cons, ih, ih (insert empty p.1 p.2), Option.or_assoc,
      get?_insert, get?_insert]
    split <;> simp [empty, get?, find]

theorem get?_ofList_append (xs ys : List (κ × α)) (key : κ) :
    (ofList (xs ++ ys)).get? key = ((ofList ys).get? key).or ((ofList xs).get? key) := by
  rw [ofList, List.foldl_append, get?_foldl_insert]
  rfl

theorem get?_ofList_cons (p : κ × α) (pairs : List (κ × α)) (key : κ) :
    (ofList (p :: pairs)).get? key =
      ((ofList pairs).get? key).or (if p.1 = key then some p.2 else none) := by
  rw [ofList, List.foldl_cons, get?_foldl_insert, get?_insert]
  rfl

theorem get?_ofList_map {β : Type} (f : α → β) (pairs : List (κ × α)) (key : κ) :
    (ofList (pairs.map fun p => (p.1, f p.2))).get? key = ((ofList pairs).get? key).map f := by
  induction pairs with
  | nil => rfl
  | cons p pairs ih =>
    rw [List.map_cons, get?_ofList_cons, get?_ofList_cons, ih, Option.map_or]
    split <;> rfl

theorem mem_of_get?_ofList {pairs : List (κ × α)} {key : κ} {value : α}
    (h : (ofList pairs).get? key = some value) : (key, value) ∈ pairs := by
  induction pairs with
  | nil => simp [ofList, empty, get?, find] at h
  | cons p pairs ih =>
    rw [get?_ofList_cons, Option.or_eq_some_iff] at h
    rcases h with h | ⟨-, h⟩
    · exact List.mem_cons_of_mem _ (ih h)
    · obtain ⟨rfl, rfl⟩ : p.1 = key ∧ p.2 = value := by simpa using h
      exact List.mem_cons_self

/-! ## Entries -/

theorem isEmpty_iff (m : OrderedMap κ α) : m.isEmpty = true ↔ ∀ key, m.get? key = none := by
  unfold isEmpty get?
  cases m.entries with
  | nil => simp [find]
  | cons e es =>
    constructor
    · simp
    · intro h
      simpa [find] using h e.1

theorem mem_of_find {key : κ} {value : α} {es : List (κ × α)} (h : find es key = some value) :
    (key, value) ∈ es := by
  induction es with
  | nil => simp [find] at h
  | cons e es ih =>
    obtain ⟨k, v⟩ := e
    unfold find at h
    split at h
    · simp_all
    · exact List.mem_cons_of_mem _ (ih h)

theorem mem_put {key : κ} {value : α} {e : κ × α} {es : List (κ × α)} (h : e ∈ put key value es) :
    e = (key, value) ∨ e ∈ es := by
  induction es with
  | nil => simpa [put] using h
  | cons e' es ih =>
    obtain ⟨k, v⟩ := e'
    unfold put at h
    split at h
    · rcases List.mem_cons.mp h with h | h
      · exact Or.inl h
      · exact Or.inr (List.mem_cons_of_mem _ h)
    · rcases List.mem_cons.mp h with rfl | h
      · exact Or.inr List.mem_cons_self
      · exact (ih h).imp_right (List.mem_cons_of_mem _)

theorem find_eq_none {key : κ} {es : List (κ × α)} (h : key ∉ es.map (·.1)) :
    find es key = none := by
  induction es with
  | nil => rfl
  | cons e es ih =>
    obtain ⟨hne, hrest⟩ : key ≠ e.1 ∧ key ∉ es.map (·.1) := by simpa using h
    rw [find, if_neg hne.symm, ih hrest]

theorem find_filter {es : List (κ × α)} (h : (es.map (·.1)).Nodup) (p : κ × α → Bool) (key : κ) :
    find (es.filter p) key = (find es key).filter fun value => p (key, value) := by
  induction es with
  | nil => rfl
  | cons e es ih =>
    obtain ⟨k, v⟩ := e
    obtain ⟨hfresh, hrest⟩ := List.nodup_cons.mp h
    by_cases hp : p (k, v) = true
    · rw [List.filter_cons_of_pos hp, find, find, ih hrest]
      split
      · rename_i hk
        rw [Option.filter_some, ← hk, if_pos hp]
      · rfl
    · rw [List.filter_cons_of_neg hp, find, ih hrest]
      split
      · rename_i hk
        rw [Option.filter_some, ← hk, if_neg hp, find_eq_none hfresh, Option.filter_none]
      · rfl

end OrderedMap

end ScriptTyping
