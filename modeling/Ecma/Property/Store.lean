import Std.Data.HashMap
import Ecma.Property.Descriptor

/-!
# Property stores

The properties of an object in the order in which they were added.  A small
store is a list; when adding a key would make it longer than the cutover, it
becomes a hash table with the order of the keys beside it.  Both forms answer
alike.
-/

namespace Ecma

inductive Storage (κ : Type) [BEq κ] [Hashable κ] where
  | list (entries : List (κ × Descriptor))
  | hashed (map : Std.HashMap κ Descriptor) (order : Array κ)

structure PropertyStore (κ : Type) [BEq κ] [Hashable κ] where
  cutover : Nat
  storage : Storage κ

namespace PropertyStore

variable {κ : Type} [BEq κ] [Hashable κ]

/-- An empty store; the cutover is at least `1`. -/
def empty (cutover : Nat) : PropertyStore κ := ⟨max cutover 1, .list []⟩

instance : Inhabited (PropertyStore κ) := ⟨empty 1⟩

def size (p : PropertyStore κ) : Nat :=
  match p.storage with
  | .list entries => entries.length
  | .hashed map _ => map.size

def isHashed (p : PropertyStore κ) : Bool :=
  match p.storage with
  | .list _ => false
  | .hashed _ _ => true

/-! ## Lists of entries -/

def find? (k : κ) : List (κ × Descriptor) → Option Descriptor
  | [] => none
  | (k', d) :: rest => if k' == k then some d else find? k rest

/-- Replaces the entry of a key that is present. -/
def replace (k : κ) (d : Descriptor) : List (κ × Descriptor) → List (κ × Descriptor)
  | [] => []
  | (k', d') :: rest => if k' == k then (k', d) :: rest else (k', d') :: replace k d rest

def erase (k : κ) : List (κ × Descriptor) → List (κ × Descriptor)
  | [] => []
  | (k', d') :: rest => if k' == k then rest else (k', d') :: erase k rest

/-- The entries of the keys `order`, up to a key that the map does not hold. -/
def entriesFrom (map : Std.HashMap κ Descriptor) : List κ → List (κ × Descriptor)
  | [] => []
  | k :: rest =>
    match map[k]? with
    | some d => (k, d) :: entriesFrom map rest
    | none => []

/-! ## Operations -/

def get? (p : PropertyStore κ) (k : κ) : Option Descriptor :=
  match p.storage with
  | .list entries => find? k entries
  | .hashed map _ => map[k]?

def contains (p : PropertyStore κ) (k : κ) : Bool := (p.get? k).isSome

/-- Writes the entry of a key that is present, in place. -/
def overwrite (p : PropertyStore κ) (k : κ) (d : Descriptor) : PropertyStore κ :=
  match p with
  | ⟨cutover, .list entries⟩ => ⟨cutover, .list (replace k d entries)⟩
  | ⟨cutover, .hashed map order⟩ => ⟨cutover, .hashed (map.insert k d) order⟩

/-- The hash table with the entries of a list. -/
def hash (entries : List (κ × Descriptor)) : Storage κ :=
  .hashed (entries.foldl (fun map e ↦ map.insert e.1 e.2) {}) (entries.map Prod.fst).toArray

/-- Adds an entry for a key that is absent, at the end. -/
def append (p : PropertyStore κ) (k : κ) (d : Descriptor) : PropertyStore κ :=
  match p with
  | ⟨cutover, .list entries⟩ =>
    if cutover ≤ entries.length then
      match hash entries with
      | .hashed map order => ⟨cutover, .hashed (map.insert k d) (order.push k)⟩
      | .list entries => ⟨cutover, .list (entries ++ [(k, d)])⟩
    else ⟨cutover, .list (entries ++ [(k, d)])⟩
  | ⟨cutover, .hashed map order⟩ => ⟨cutover, .hashed (map.insert k d) (order.push k)⟩

/-- Replaces the entry of a key in place, or adds it at the end. -/
def set (p : PropertyStore κ) (k : κ) (d : Descriptor) : PropertyStore κ :=
  if p.contains k then p.overwrite k d else p.append k d

/-- Changes the entry of a key in place; an absent key stays absent. -/
def modify (p : PropertyStore κ) (k : κ) (f : Descriptor → Descriptor) : PropertyStore κ :=
  match p.get? k with
  | some d => p.overwrite k (f d)
  | none => p

/-- Takes a key out; its entry is given back. -/
def remove (p : PropertyStore κ) (k : κ) : Option Descriptor × PropertyStore κ :=
  match p with
  | ⟨cutover, .list entries⟩ =>
    match find? k entries with
    | some d => (some d, ⟨cutover, .list (erase k entries)⟩)
    | none => (none, ⟨cutover, .list entries⟩)
  | ⟨cutover, .hashed map order⟩ =>
    match map[k]? with
    | some d => (some d, ⟨cutover, .hashed (map.erase k) (order.filter (· != k))⟩)
    | none => (none, ⟨cutover, .hashed map order⟩)

def toList (p : PropertyStore κ) : List (κ × Descriptor) :=
  match p.storage with
  | .list entries => entries
  | .hashed map order => entriesFrom map order.toList

def keys (p : PropertyStore κ) : List κ := p.toList.map Prod.fst

@[simp] theorem get?_empty (cutover : Nat) (k : κ) : (empty cutover).get? k = none := rfl

@[simp] theorem toList_empty (cutover : Nat) : (empty cutover : PropertyStore κ).toList = [] := rfl

@[simp] theorem size_empty (cutover : Nat) : (empty cutover : PropertyStore κ).size = 0 := rfl

end PropertyStore

end Ecma
