/-!
# Catalogs

Finite maps as lists of entries with distinct keys. What an operation does to a catalog is said
through `get?`.
-/

namespace KeywordCompletion

/-- A finite map: entries with distinct keys. -/
structure Catalog (κ ν : Type) where
  entries : List (κ × ν)
  keys_nodup : (entries.map Prod.fst).Nodup

namespace Catalog

variable {κ ν : Type} [DecidableEq κ]

def empty : Catalog κ ν := ⟨[], List.nodup_nil⟩

def get? (c : Catalog κ ν) (key : κ) : Option ν :=
  (c.entries.find? fun entry => entry.1 == key).map Prod.snd

def contains (c : Catalog κ ν) (key : κ) : Bool := (c.get? key).isSome

def size (c : Catalog κ ν) : Nat := c.entries.length

def erase (c : Catalog κ ν) (key : κ) : Catalog κ ν :=
  ⟨c.entries.filter fun entry => entry.1 != key,
    (List.filter_sublist.map Prod.fst).nodup c.keys_nodup⟩

theorem key_notMem_erase (c : Catalog κ ν) (key : κ) :
    key ∉ (c.erase key).entries.map Prod.fst := by
  simp [erase]

/-- The catalog with a value under a key, in place of the one that was there. -/
def insert (c : Catalog κ ν) (key : κ) (value : ν) : Catalog κ ν :=
  ⟨(key, value) :: (c.erase key).entries,
    List.nodup_cons.2 ⟨c.key_notMem_erase key, (c.erase key).keys_nodup⟩⟩

@[simp] theorem get?_empty (key : κ) : (empty : Catalog κ ν).get? key = none := rfl

@[simp] theorem get?_erase_self (c : Catalog κ ν) (key : κ) : (c.erase key).get? key = none := by
  simp [get?, erase]

@[simp] theorem get?_erase_of_ne (c : Catalog κ ν) {key other : κ} (h : other ≠ key) :
    (c.erase key).get? other = c.get? other := by
  simp only [get?, erase, List.find?_filter]
  congr 2
  funext entry
  by_cases e : entry.1 = other
  · simp [e, h]
  · simp [e]

@[simp] theorem get?_insert_self (c : Catalog κ ν) (key : κ) (value : ν) :
    (c.insert key value).get? key = some value := by
  simp [get?, insert]

@[simp] theorem get?_insert_of_ne (c : Catalog κ ν) {key other : κ} (h : other ≠ key) (value : ν) :
    (c.insert key value).get? other = c.get? other := by
  rw [← get?_erase_of_ne c h]
  simp [get?, insert, Ne.symm h]

end Catalog

end KeywordCompletion
