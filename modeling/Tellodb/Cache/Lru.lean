import Mathlib.Data.List.Basic

/-!
# Least recently used caches

A cache of bounded size as the list of its entries, the most recently used first. Reading and
entering look at the keys only, so a cache of computed values behaves as the cache of what they are
computed from (`LruCache.peek_map`, `LruCache.touch_map`, `LruCache.put_map`): a run may be followed
on the arguments, and the values put in at the end. -/

namespace Tellodb.Cache

/-- A cache with the most recently used entry first. -/
structure LruCache (κ ν : Type*) where
  capacity : ℕ
  entries : List (κ × ν)

namespace LruCache

variable {κ ν μ : Type*}

/-- An empty cache. -/
def empty (κ ν : Type*) (capacity : ℕ) : LruCache κ ν :=
  ⟨capacity, []⟩

/-- The same cache with other values. -/
def map (f : ν → μ) (c : LruCache κ ν) : LruCache κ μ :=
  ⟨c.capacity, c.entries.map fun entry => (entry.1, f entry.2)⟩

variable [DecidableEq κ]

/-- The value under a key, which stays where it is. -/
def peek (c : LruCache κ ν) (k : κ) : Option ν :=
  (c.entries.find? fun entry => entry.1 = k).map Prod.snd

/-- The cache after the value under a key is read: the entry becomes the most recent one. -/
def touch (c : LruCache κ ν) (k : κ) : LruCache κ ν :=
  match c.entries.find? fun entry => entry.1 = k with
  | some entry => ⟨c.capacity, entry :: c.entries.eraseP fun entry => entry.1 = k⟩
  | none => c

/-- The cache after a value is entered under a key: the least recent entry goes when there is no
room for a new one. -/
def put (c : LruCache κ ν) (k : κ) (v : ν) : LruCache κ ν :=
  ⟨c.capacity, ((k, v) :: c.entries.eraseP fun entry => entry.1 = k).take c.capacity⟩

/-- There is room for a value under a key, so that the entry of no other key has to go. -/
def HasRoom (c : LruCache κ ν) (k : κ) : Prop :=
  (c.entries.eraseP fun entry => entry.1 = k).length < c.capacity

instance (c : LruCache κ ν) (k : κ) : Decidable (c.HasRoom k) :=
  inferInstanceAs (Decidable (_ < _))

/-- A value is found among the entries. -/
theorem mem_of_peek {c : LruCache κ ν} {k : κ} {v : ν} (h : c.peek k = some v) :
    (k, v) ∈ c.entries := by
  obtain ⟨entry, hfind, rfl⟩ := Option.map_eq_some_iff.mp h
  have hkey := List.find?_some hfind
  have hmem := List.mem_of_find?_eq_some hfind
  rw [← of_decide_eq_true hkey]
  exact hmem

/-- Reading enters nothing. -/
theorem mem_touch {c : LruCache κ ν} {k : κ} {entry : κ × ν} (h : entry ∈ (c.touch k).entries) :
    entry ∈ c.entries := by
  unfold touch at h
  split at h
  · rename_i found hfind
    rcases List.mem_cons.mp h with rfl | hrest
    · exact List.mem_of_find?_eq_some hfind
    · exact List.mem_of_mem_eraseP hrest
  · exact h

/-- What is entered is the new entry, or was there. -/
theorem mem_put {c : LruCache κ ν} {k : κ} {v : ν} {entry : κ × ν}
    (h : entry ∈ (c.put k v).entries) : entry = (k, v) ∨ entry ∈ c.entries := by
  rcases List.mem_cons.mp (List.mem_of_mem_take h) with hnew | hold
  · exact .inl hnew
  · exact .inr (List.mem_of_mem_eraseP hold)

/-- The entries after a value is entered that there is room for. -/
theorem HasRoom.entries_put {c : LruCache κ ν} {k : κ} (h : c.HasRoom k) (v : ν) :
    (c.put k v).entries = (k, v) :: c.entries.eraseP fun entry => entry.1 = k :=
  List.take_of_length_le (Nat.succ_le_of_lt h)

/-- What is entered is found. -/
theorem HasRoom.peek_put_self {c : LruCache κ ν} {k : κ} (h : c.HasRoom k) (v : ν) :
    (c.put k v).peek k = some v := by
  unfold peek
  rw [h.entries_put, List.find?_cons_of_pos (by simp)]
  rfl

/-- Every other key keeps its value. -/
theorem HasRoom.peek_put_of_ne {c : LruCache κ ν} {k k' : κ} (h : c.HasRoom k) (v : ν)
    (hne : k' ≠ k) : (c.put k v).peek k' = c.peek k' := by
  have herase : ∀ entries : List (κ × ν),
      (entries.eraseP fun entry => entry.1 = k).find? (fun entry => entry.1 = k') =
        entries.find? fun entry => entry.1 = k' := by
    intro entries
    induction entries with
    | nil => rfl
    | cons entry rest ih =>
      by_cases hkey : entry.1 = k
      · rw [List.eraseP_cons_of_pos (by simp [hkey]), List.find?_cons_of_neg]
        simp only [hkey, decide_eq_true_eq]
        exact fun heq => hne heq.symm
      · rw [List.eraseP_cons_of_neg (by simp [hkey]), List.find?_cons, List.find?_cons, ih]
  unfold peek
  rw [h.entries_put, List.find?_cons_of_neg (by simp [hne.symm]), herase]

/-- A value is found by its key, whatever it is. -/
@[simp] theorem peek_map (f : ν → μ) (c : LruCache κ ν) (k : κ) :
    (c.map f).peek k = (c.peek k).map f := by
  unfold peek map
  rw [List.find?_map, Option.map_map, Option.map_map]
  rfl

/-- Reading moves an entry, whatever its value is. -/
theorem touch_map (f : ν → μ) (c : LruCache κ ν) (k : κ) :
    (c.map f).touch k = (c.touch k).map f := by
  have hfind : (c.map f).entries.find? (fun entry => entry.1 = k) =
      (c.entries.find? fun entry => entry.1 = k).map fun entry => (entry.1, f entry.2) := by
    unfold map
    rw [List.find?_map]
    rfl
  unfold touch
  rw [hfind]
  cases c.entries.find? fun entry => entry.1 = k with
  | none => rfl
  | some entry =>
    unfold map
    simp only [Option.map_some, List.map_cons, List.eraseP_map]
    rfl

/-- Entering a value takes the same room, whatever the value is. -/
theorem put_map (f : ν → μ) (c : LruCache κ ν) (k : κ) (v : ν) :
    (c.map f).put k (f v) = (c.put k v).map f := by
  unfold put map
  simp only [List.map_take, List.map_cons, List.eraseP_map]
  rfl

end LruCache

end Tellodb.Cache
