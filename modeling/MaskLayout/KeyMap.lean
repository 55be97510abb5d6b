/-!
# Finite maps

Finite maps with a fixed order of keys: a list of entries, strictly ascending by key.
-/

namespace MaskLayout

open Std

/-- A map from keys to values. -/
structure KeyMap (κ : Type) (α : Type) [Ord κ] where
  entries : List (κ × α)
  ascending : entries.Pairwise fun a b => compare a.1 b.1 = .lt
deriving DecidableEq

namespace KeyMap

variable {κ α β : Type} [Ord κ]

/-- The map of no entries. -/
def empty : KeyMap κ α := ⟨[], .nil⟩

instance : Inhabited (KeyMap κ α) := ⟨empty⟩

/-- The value of a key. -/
def get? (m : KeyMap κ α) (k : κ) : Option α :=
  (m.entries.find? fun e => compare e.1 k == .eq).map (·.2)

/-- Whether a key has a value. -/
def contains (m : KeyMap κ α) (k : κ) : Bool := (m.get? k).isSome

/-- The keys in order. -/
def keys (m : KeyMap κ α) : List κ := m.entries.map (·.1)

/-- The values in key order. -/
def values (m : KeyMap κ α) : List α := m.entries.map (·.2)

/-- Whether there are no entries. -/
def isEmpty (m : KeyMap κ α) : Bool := m.entries.isEmpty

/-- Put an entry into an ascending list, in place of one with the same key. -/
def insertEntry (k : κ) (v : α) : List (κ × α) → List (κ × α)
  | [] => [(k, v)]
  | e :: rest =>
    match compare k e.1 with
    | .lt => (k, v) :: e :: rest
    | .eq => (k, v) :: rest
    | .gt => e :: insertEntry k v rest

theorem mem_insertEntry {k : κ} {v : α} {e : κ × α} {l : List (κ × α)} :
    e ∈ insertEntry k v l → e = (k, v) ∨ e ∈ l := by
  induction l with
  | nil => simp [insertEntry]
  | cons d rest ih =>
    unfold insertEntry
    split
    · simp
    · intro h
      rcases List.mem_cons.1 h with h | h <;> simp [h]
    · intro h
      rcases List.mem_cons.1 h with h | h
      · simp [h]
      · rcases ih h with h | h <;> simp [h]

theorem ascending_insertEntry [TransOrd κ] [LawfulEqOrd κ] {k : κ} {v : α} {l : List (κ × α)}
    (h : l.Pairwise fun a b => compare a.1 b.1 = .lt) :
    (insertEntry k v l).Pairwise fun a b => compare a.1 b.1 = .lt := by
  induction l with
  | nil => simp [insertEntry]
  | cons d rest ih =>
    have hd := List.pairwise_cons.1 h
    unfold insertEntry
    split
    · rename_i hlt
      refine List.pairwise_cons.2 ⟨fun a ha => ?_, h⟩
      rcases List.mem_cons.1 ha with rfl | ha
      · exact hlt
      · exact TransCmp.lt_trans hlt (hd.1 a ha)
    · rename_i heq
      have : k = d.1 := LawfulEqCmp.eq_of_compare heq
      subst this
      exact List.pairwise_cons.2 ⟨hd.1, hd.2⟩
    · rename_i hgt
      refine List.pairwise_cons.2 ⟨fun a ha => ?_, ih hd.2⟩
      rcases mem_insertEntry ha with rfl | ha
      · exact OrientedCmp.gt_iff_lt.1 hgt
      · exact hd.1 a ha

/-- Give a key a value. -/
def insert [TransOrd κ] [LawfulEqOrd κ] (m : KeyMap κ α) (k : κ) (v : α) : KeyMap κ α :=
  ⟨insertEntry k v m.entries, ascending_insertEntry m.ascending⟩

/-- The map of a list of entries, of which the last one of each key counts. -/
def ofList [TransOrd κ] [LawfulEqOrd κ] (l : List (κ × α)) : KeyMap κ α :=
  l.foldl (fun m e => m.insert e.1 e.2) empty

/-- Apply a function that can fail to every value, in key order. -/
def traverse [TransOrd κ] [LawfulEqOrd κ] {ε : Type} (f : κ → α → Except ε β) (m : KeyMap κ α) :
    Except ε (KeyMap κ β) := do
  let es ← m.entries.mapM fun e => do return (e.1, ← f e.1 e.2)
  return ofList es

end KeyMap

end MaskLayout
