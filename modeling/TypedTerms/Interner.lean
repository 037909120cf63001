import Std.Data.HashMap

/-!
# Interners and symbols

An interner numbers values, and finds the number of a value through an
index that is kept in shards. A symbol table is an interner of names.
-/

/-!
## Maps in shards

A map from keys to numbers, kept in a fixed number of parts so that two
who look things up at once seldom want the same one. A function assigns
every key its shard. Which function that is decides where an entry lies,
and nothing else: looking up after an insertion finds what was inserted,
and otherwise what was there before (`find?_insert`), for any assignment
of shards.
-/

namespace TypedTerms

/-- The number of shards. -/
def shardCount : Nat := 16

/-- The place of a shard. -/
abbrev Shard := Fin shardCount

/-- A map from keys to numbers, in shards. -/
structure Shards (α : Type) [DecidableEq α] [Hashable α] where
  /-- The shard that a key is looked for in. -/
  shard : α → Shard
  parts : Vector (Std.HashMap α Nat) shardCount

namespace Shards

variable {α : Type} [DecidableEq α] [Hashable α]

/-- Shards by the remainder of a hash. -/
def ofHash (a : α) : Shard := ⟨(hash a).toNat % shardCount, Nat.mod_lt _ (by decide)⟩

/-- The map without entries, over an assignment of shards. -/
def empty (shard : α → Shard) : Shards α where
  shard := shard
  parts := Vector.replicate shardCount ∅

/-- The number of a key, if it has one. -/
def find? (m : Shards α) (a : α) : Option Nat := m.parts[m.shard a][a]?

/-- The map with a number for a key, in the shard of the key. -/
def insert (m : Shards α) (a : α) (i : Nat) : Shards α where
  shard := m.shard
  parts := ⟨m.parts.toArray.modify (m.shard a) (·.insert a i), by simp⟩

@[simp] theorem find?_empty (shard : α → Shard) (a : α) : (empty shard).find? a = none := by
  simp [empty, find?]

/-- After an insertion the new key is found with its number, and every other
key as before, whatever shards the two are in. -/
theorem find?_insert (m : Shards α) (a b : α) (i : Nat) :
    (m.insert a i).find? b = if a = b then some i else m.find? b := by
  have hpart : (m.insert a i).parts[m.shard b] =
      if m.shard a = m.shard b then m.parts[m.shard b].insert a i else m.parts[m.shard b] := by
    simp [insert, Array.getElem_modify, Fin.val_inj]
  show (m.insert a i).parts[m.shard b][b]? = _
  rw [hpart]
  by_cases hab : a = b
  · subst hab
    rw [if_pos rfl, if_pos rfl, Std.HashMap.getElem?_insert_self]
  · rw [if_neg hab]
    split
    · rw [Std.HashMap.getElem?_insert, if_neg (by simpa using hab)]
      rfl
    · rfl

end Shards

/-!
## Interners

An interner numbers distinct values densely from zero, in the order in
which they are first given to it. A value given again keeps its number,
and nothing is ever taken out, so a number stands for the same value
from then on.

The values are kept in an array, and beside it an index from values to
numbers, in shards, that makes interning fast. The index decides nothing:
by `index_iff` it holds exactly what the array says, so every statement
about an interner is a statement about `get?`, however the values are
assigned to shards.
-/

/-- Distinct values, numbered in the order of first interning. -/
structure Interner (α : Type) [DecidableEq α] [Hashable α] where
  /-- The values, each at its number. -/
  entries : Array α
  /-- The number of each value. -/
  index : Shards α
  index_iff : ∀ (a : α) (i : Nat), index.find? a = some i ↔ entries[i]? = some a

namespace Interner

variable {α : Type} [DecidableEq α] [Hashable α]

/-- The interner without values, over an assignment of shards. -/
def sharded (shard : α → Shard) : Interner α where
  entries := #[]
  index := .empty shard
  index_iff := by simp

def empty : Interner α := sharded Shards.ofHash

instance : Inhabited (Interner α) := ⟨empty⟩

def size (t : Interner α) : Nat := t.entries.size

/-- The value with number `i`. -/
def get? (t : Interner α) (i : Nat) : Option α := t.entries[i]?

/-- The number of a value, if it is held. -/
def find? (t : Interner α) (a : α) : Option Nat := t.index.find? a

/-- Index and array still say the same when a value that was not there is
put at the end of both. -/
theorem index_iff_push (t : Interner α) {a : α} (h : t.index.find? a = none) (b : α) (i : Nat) :
    (t.index.insert a t.entries.size).find? b = some i ↔ (t.entries.push a)[i]? = some b := by
  rw [Shards.find?_insert, Array.getElem?_push]
  by_cases hb : a = b
  · subst hb
    have hnot : t.entries[i]? ≠ some a := fun hi => by
      have := (t.index_iff a i).mpr hi
      rw [h] at this
      cases this
    by_cases hi : i = t.entries.size
    · simp [hi]
    · simp [hi, hnot, Ne.symm hi]
  · by_cases hi : i = t.entries.size
    · subst hi
      have : t.index.find? b ≠ some t.entries.size := fun hc => by
        have := (t.index_iff b _).mp hc
        simp at this
      simp [hb, this]
    · simp [hb, hi, t.index_iff b i]

/-- The number of a value, and the interner that holds it: the number it
had, or the next free one. -/
def intern (t : Interner α) (a : α) : Nat × Interner α :=
  match h : t.index.find? a with
  | some i => (i, t)
  | none =>
    (t.entries.size,
      { entries := t.entries.push a
        index := t.index.insert a t.entries.size
        index_iff := t.index_iff_push h })

/-! ### What the operations do to `get?` -/

@[simp] theorem get?_sharded (shard : α → Shard) (i : Nat) :
    (sharded shard).get? i = none := by
  simp [sharded, get?]

@[simp] theorem get?_empty (i : Nat) : (empty : Interner α).get? i = none := get?_sharded _ i

theorem find?_eq_some_iff {t : Interner α} {a : α} {i : Nat} :
    t.find? a = some i ↔ t.get? i = some a := t.index_iff a i

/-- No value stands at two places. -/
theorem get?_inj {t : Interner α} {a : α} {i j : Nat} (hi : t.get? i = some a)
    (hj : t.get? j = some a) : i = j := by
  have h1 := find?_eq_some_iff.mpr hi
  have h2 := find?_eq_some_iff.mpr hj
  rw [h1] at h2
  exact Option.some.inj h2

/-- The places in use are those below the size. -/
theorem get?_eq_none_iff {t : Interner α} {i : Nat} : t.get? i = none ↔ t.size ≤ i := by
  simp [get?, size]

/-- A value that has a number is answered with it, and nothing changes. -/
theorem intern_of_get? {t : Interner α} {a : α} {i : Nat} (h : t.get? i = some a) :
    t.intern a = (i, t) := by
  have hi : t.index.find? a = some i := (t.index_iff a i).mpr h
  unfold intern
  split
  · next j hj =>
    rw [hi] at hj
    cases hj
    rfl
  · next hn =>
    rw [hi] at hn
    cases hn

/-- A new value gets the next number and is put at the end. -/
theorem intern_of_find?_eq_none {t : Interner α} {a : α} (h : t.find? a = none) :
    (t.intern a).1 = t.size ∧ (t.intern a).2.entries = t.entries.push a := by
  unfold intern
  split
  · next j hj =>
    have : t.index.find? a = none := h
    rw [this] at hj
    cases hj
  · exact ⟨rfl, rfl⟩

/-- The value stands at the number that it is answered with. -/
theorem get?_intern (t : Interner α) (a : α) : (t.intern a).2.get? (t.intern a).1 = some a := by
  cases h : t.find? a with
  | some i =>
    have := find?_eq_some_iff.mp h
    rw [intern_of_get? this]
    exact this
  | none =>
    obtain ⟨h1, h2⟩ := intern_of_find?_eq_none h
    rw [h1, get?, h2, size, Array.getElem?_push_size]

/-- What stood at a number before interning still stands there. -/
theorem get?_intern_of_get? {t : Interner α} {b : α} {i : Nat} (a : α) (h : t.get? i = some b) :
    (t.intern a).2.get? i = some b := by
  cases hf : t.find? a with
  | some j =>
    rw [intern_of_get? (find?_eq_some_iff.mp hf)]
    exact h
  | none =>
    obtain ⟨_, h2⟩ := intern_of_find?_eq_none hf
    have hlt : i < t.entries.size := by
      obtain ⟨hi, _⟩ := Array.getElem?_eq_some_iff.mp h
      exact hi
    rw [get?, h2, Array.getElem?_push_lt hlt, ← Array.getElem?_eq_getElem hlt]
    exact h

end Interner

/-!
## Symbols

A symbol stands for a name in a symbol table. Names are labels: two
globals may share one, while distinct objects are told apart by theirs.
-/

/-- The number of a name in a symbol table. -/
structure Symbol where
  number : Nat
  deriving DecidableEq, Repr, Hashable

namespace Symbol

/-- How a symbol is shown where its name is not known. Shown numbers
count from one. -/
def text (s : Symbol) : String := "Spur(" ++ toString (s.number + 1) ++ ")"

end Symbol

/-- The names in use, each with its symbol. -/
abbrev SymbolTable := Interner String

namespace SymbolTable

def empty : SymbolTable := Interner.empty

/-- The symbol of a name, entered if it is new. -/
def symbol (t : SymbolTable) (name : String) : Symbol × SymbolTable :=
  let (i, t) := t.intern name
  (⟨i⟩, t)

/-- The symbol of a name, if the table has it. -/
def symbol? (t : SymbolTable) (name : String) : Option Symbol := (t.find? name).map .mk

/-- The name a symbol stands for, if the table has it. -/
def name? (t : SymbolTable) (s : Symbol) : Option String := t.get? s.number

/-- Does the table have the name? -/
def contains (t : SymbolTable) (name : String) : Bool := (t.symbol? name).isSome

end SymbolTable

end TypedTerms
