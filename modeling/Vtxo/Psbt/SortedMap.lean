import Vtxo.Bytes

/-!
# Maps sorted by the bytes of their keys

The maps of a partially signed transaction list their entries in the order of the keys' bytes, each key once. A map
is therefore a list of entries with strictly increasing keys, and two maps with the same entries are equal.

  1. `find?_insert`: an inserted entry is found, and no other entry changes.
  2. `find?_erase`: what erasing keeps is found as before, and nothing else.
-/

set_option autoImplicit false

namespace Vtxo

/-- Keys with a form in bytes that tells them apart. -/
class ByteKey (κ : Type) where
  keyBytes : κ → Bytes
  keyBytes_inj : ∀ a b, keyBytes a = keyBytes b → a = b

open ByteKey

/-- Whether a key comes before another one. -/
def keyBefore {κ : Type} [ByteKey κ] (a b : κ) : Prop :=
  keyBytes a < keyBytes b

instance {κ : Type} [ByteKey κ] (a b : κ) : Decidable (keyBefore a b) :=
  inferInstanceAs (Decidable (keyBytes a < keyBytes b))

/-- Entries in strictly increasing order of their keys. -/
structure SortedMap (κ ν : Type) [ByteKey κ] where
  entries : List (κ × ν)
  sorted : entries.Pairwise fun a b => keyBefore a.1 b.1

namespace SortedMap

variable {κ ν : Type} [ByteKey κ]

theorem ext {a b : SortedMap κ ν} (h : a.entries = b.entries) : a = b := by
  cases a
  cases b
  congr

instance [DecidableEq κ] [DecidableEq ν] : DecidableEq (SortedMap κ ν) := fun a b =>
  if h : a.entries = b.entries then isTrue (ext h) else isFalse fun hab => h (congrArg entries hab)

def empty : SortedMap κ ν := ⟨[], List.Pairwise.nil⟩

/-- The entries with one inserted at its place; an entry with the same key is replaced. -/
def insertEntry (key : κ) (value : ν) : List (κ × ν) → List (κ × ν)
  | [] => [(key, value)]
  | entry :: rest =>
    if keyBefore key entry.1 then (key, value) :: entry :: rest
    else if keyBefore entry.1 key then entry :: insertEntry key value rest
    else (key, value) :: rest

theorem keyBefore_trans {a b c : κ} (h : keyBefore a b) (h' : keyBefore b c) : keyBefore a c :=
  List.lt_trans h h'

theorem keyBefore_irrefl (a : κ) : ¬ keyBefore a a :=
  List.lt_irrefl (keyBytes a)

theorem eq_of_not_before {a b : κ} (h : ¬ keyBefore a b) (h' : ¬ keyBefore b a) : a = b :=
  keyBytes_inj a b (List.le_antisymm h' h)

theorem mem_insertEntry {key : κ} {value : ν} {entries : List (κ × ν)} {entry : κ × ν}
    (h : entry ∈ insertEntry key value entries) : entry = (key, value) ∨ entry ∈ entries := by
  induction entries with
  | nil => simpa [insertEntry] using h
  | cons first rest ih =>
    rw [insertEntry] at h
    split at h
    · simpa using h
    · split at h
      · rcases List.mem_cons.mp h with h | h
        · exact Or.inr (List.mem_cons.mpr (Or.inl h))
        · rcases ih h with h | h
          · exact Or.inl h
          · exact Or.inr (List.mem_cons_of_mem _ h)
      · rcases List.mem_cons.mp h with h | h
        · exact Or.inl h
        · exact Or.inr (List.mem_cons_of_mem _ h)

theorem sorted_insertEntry {key : κ} {value : ν} {entries : List (κ × ν)}
    (h : entries.Pairwise fun a b => keyBefore a.1 b.1) :
    (insertEntry key value entries).Pairwise fun a b => keyBefore a.1 b.1 := by
  induction entries with
  | nil => simp [insertEntry]
  | cons first rest ih =>
    obtain ⟨hfirst, hrest⟩ := List.pairwise_cons.mp h
    rw [insertEntry]
    split
    · next hkey =>
      refine List.pairwise_cons.mpr ⟨?_, h⟩
      intro entry hmem
      rcases List.mem_cons.mp hmem with rfl | hmem
      · exact hkey
      · exact keyBefore_trans hkey (hfirst entry hmem)
    · next hkey =>
      split
      · next hkey' =>
        refine List.pairwise_cons.mpr ⟨?_, ih hrest⟩
        intro entry hmem
        rcases mem_insertEntry hmem with rfl | hmem
        · exact hkey'
        · exact hfirst entry hmem
      · next hkey' =>
        have heq : key = first.1 := eq_of_not_before hkey hkey'
        refine List.pairwise_cons.mpr ⟨?_, hrest⟩
        intro entry hmem
        rw [heq]
        exact hfirst entry hmem

/-- The map with an entry inserted, in place of one with the same key. -/
def insert (map : SortedMap κ ν) (key : κ) (value : ν) : SortedMap κ ν :=
  ⟨insertEntry key value map.entries, sorted_insertEntry map.sorted⟩

/-- The map without the entries whose key satisfies a condition. -/
def erase (map : SortedMap κ ν) (drop : κ → Bool) : SortedMap κ ν :=
  ⟨map.entries.filter fun entry => !drop entry.1, map.sorted.filter _⟩

/-- The value of a key. -/
def find? [DecidableEq κ] (map : SortedMap κ ν) (key : κ) : Option ν :=
  (map.entries.find? fun entry => entry.1 == key).map (·.2)

/-- The first entry whose key satisfies a condition. -/
def findKey? (map : SortedMap κ ν) (wanted : κ → Bool) : Option (κ × ν) :=
  map.entries.find? fun entry => wanted entry.1

theorem find?_insertEntry [DecidableEq κ] (key other : κ) (value : ν) {entries : List (κ × ν)}
    (h : entries.Pairwise fun a b => keyBefore a.1 b.1) :
    (insertEntry key value entries).find? (fun entry => entry.1 == other) =
      if key = other then some (key, value) else entries.find? fun entry => entry.1 == other := by
  induction entries with
  | nil =>
    by_cases hk : key = other <;> simp [insertEntry, hk]
  | cons first rest ih =>
    obtain ⟨hfirst, hrest⟩ := List.pairwise_cons.mp h
    rw [insertEntry]
    split
    · next hkey =>
      by_cases hk : key = other <;> simp [hk]
    · next hkey =>
      split
      · next hkey' =>
        by_cases hf : first.1 = other
        · have hne : key ≠ other := by
            rintro rfl
            exact keyBefore_irrefl _ (hf ▸ hkey')
          simp [hf, hne]
        · simp [hf, ih hrest]
      · next hkey' =>
        have heq : key = first.1 := eq_of_not_before hkey hkey'
        by_cases hk : key = other
        · simp [hk]
        · have hf : ¬ first.1 = other := heq ▸ hk
          simp [hk, hf]

theorem find?_insert [DecidableEq κ] (map : SortedMap κ ν) (key other : κ) (value : ν) :
    (map.insert key value).find? other = if key = other then some value else map.find? other := by
  simp only [find?, insert, find?_insertEntry key other value map.sorted]
  split <;> rfl

theorem find?_erase [DecidableEq κ] (map : SortedMap κ ν) (drop : κ → Bool) (key : κ) :
    (map.erase drop).find? key = if drop key = true then none else map.find? key := by
  simp only [find?, erase, List.find?_filter]
  by_cases hd : drop key = true
  · rw [if_pos hd]
    simp only [Option.map_eq_none_iff, List.find?_eq_none]
    rintro entry _ hentry
    simp only [decide_eq_true_eq, Bool.not_eq_true', Bool.decide_and,
      Bool.and_eq_true, beq_iff_eq] at hentry
    rw [hentry.2, hd] at hentry
    exact absurd hentry.1 (by decide)
  · rw [if_neg hd]
    congr 2
    funext entry
    by_cases he : entry.1 = key
    · simp [he, hd]
    · simp [he]

end SortedMap

end Vtxo
