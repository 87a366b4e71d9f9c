import Ecma.Value.Key

/-!
# Property descriptors

A descriptor is a stored property or a patch to one.  Each of its fields may be
left unspecified; an attribute has a bit of its own for that.  A property's value
may also be computed on the first read (`lazy`) or live in a variable (`bound`).
-/

namespace Ecma

/-- One attribute: a bit for its value and one that says that it is specified. -/
structure Attribute where
  value : Bool
  isSpecified : Bool
  deriving DecidableEq, Inhabited

namespace Attribute

def unspecified : Attribute := ⟨false, false⟩

def given (b : Bool) : Attribute := ⟨b, true⟩

/-- What the attribute says; `none` is unspecified. -/
def read (a : Attribute) : Option Bool := if a.isSpecified then some a.value else none

/-- The attribute, or what `patch` specifies in its place. -/
def override (a patch : Attribute) : Attribute := if patch.isSpecified then patch else a

/-- Makes the attribute count as specified; its value is what the bit says. -/
def specify (a : Attribute) : Attribute := { a with isSpecified := true }

/-- The two bits as a number. -/
def bits (a : Attribute) : Nat := a.value.toNat + 2 * a.isSpecified.toNat

@[simp] theorem read_unspecified : unspecified.read = none := rfl

@[simp] theorem read_given (b : Bool) : (given b).read = some b := rfl

@[simp] theorem read_override (a patch : Attribute) :
    (a.override patch).read = patch.read.or a.read := by
  obtain ⟨b, _ | _⟩ := patch <;> rfl

@[simp] theorem read_specify (a : Attribute) : a.specify.read = some a.value := rfl

@[simp] theorem given_override (b : Bool) (patch : Attribute) :
    (given b).override patch = given (patch.read.getD b) := by
  obtain ⟨b', _ | _⟩ := patch <;> rfl

theorem read_eq_none {a : Attribute} : a.read = none ↔ a.isSpecified = false := by
  obtain ⟨b, _ | _⟩ := a <;> simp [read]

theorem override_eq_self (a : Attribute) {patch : Attribute} (h : patch.read = none) :
    a.override patch = a := by
  rw [override, if_neg (by rw [read_eq_none.1 h]; exact Bool.false_ne_true)]

theorem read_eq_some {a : Attribute} {b : Bool} : a.read = some b ↔ a = given b := by
  obtain ⟨b', _ | _⟩ := a <;> simp [read, given]

/-- Nothing changes if the attribute is what the patch asks for. -/
theorem override_eq_left {a patch : Attribute}
    (h : ∀ b, patch.read = some b → a.read = some b) : a.override patch = a := by
  cases hpatch : patch.read with
  | none => exact override_eq_self a hpatch
  | some b =>
      rw [read_eq_some.1 hpatch, read_eq_some.1 (h b hpatch)]
      rfl

end Attribute

/-- The three attributes of a property. -/
structure Attributes where
  writableBits : Attribute
  enumerableBits : Attribute
  configurableBits : Attribute
  deriving DecidableEq, Inhabited

namespace Attributes

def writable (a : Attributes) : Option Bool := a.writableBits.read

def enumerable (a : Attributes) : Option Bool := a.enumerableBits.read

def configurable (a : Attributes) : Option Bool := a.configurableBits.read

def unspecified : Attributes := ⟨.unspecified, .unspecified, .unspecified⟩

def ofBools (writable enumerable configurable : Bool) : Attributes :=
  ⟨.given writable, .given enumerable, .given configurable⟩

/-- The attributes with those that `patch` specifies replaced. -/
def override (a patch : Attributes) : Attributes :=
  ⟨a.writableBits.override patch.writableBits, a.enumerableBits.override patch.enumerableBits,
    a.configurableBits.override patch.configurableBits⟩

/-- The attributes as one number. -/
def bits (a : Attributes) : Nat :=
  a.enumerableBits.bits + 4 * a.writableBits.bits + 16 * a.configurableBits.bits

def allSpecified (a : Attributes) : Bool :=
  a.writable.isSome && a.enumerable.isSome && a.configurable.isSome

@[simp] theorem read_writableBits (a : Attributes) : a.writableBits.read = a.writable := rfl

@[simp] theorem read_enumerableBits (a : Attributes) : a.enumerableBits.read = a.enumerable := rfl

@[simp] theorem read_configurableBits (a : Attributes) :
    a.configurableBits.read = a.configurable := rfl

@[simp] theorem writable_mk (w e c : Attribute) : writable ⟨w, e, c⟩ = w.read := rfl

@[simp] theorem enumerable_mk (w e c : Attribute) : enumerable ⟨w, e, c⟩ = e.read := rfl

@[simp] theorem configurable_mk (w e c : Attribute) : configurable ⟨w, e, c⟩ = c.read := rfl

section Override

variable (a patch : Attributes)

@[simp] theorem override_unspecified : a.override unspecified = a := rfl

@[simp] theorem writable_override :
    (a.override patch).writable = patch.writable.or a.writable :=
  a.writableBits.read_override patch.writableBits

@[simp] theorem enumerable_override :
    (a.override patch).enumerable = patch.enumerable.or a.enumerable :=
  a.enumerableBits.read_override patch.enumerableBits

@[simp] theorem configurable_override :
    (a.override patch).configurable = patch.configurable.or a.configurable :=
  a.configurableBits.read_override patch.configurableBits

end Override

end Attributes

/-- What a property holds. -/
inductive PropertyForm where
  | generic
  | data (value : Option Value)
  | accessor (get set : Option Value)
  | lazy (cell : CellRef)
  | bound (scope : ScopeRef) (name : String)
  deriving Inhabited

structure Descriptor where
  attributes : Attributes
  form : PropertyForm
  deriving Inhabited

namespace Descriptor

/-! ## Building -/

/-- A patch that specifies nothing. -/
def generic : Descriptor := ⟨.unspecified, .generic⟩

def data (v : Value) (writable enumerable configurable : Bool) : Descriptor :=
  ⟨.ofBools writable enumerable configurable, .data (some v)⟩

/-- What plain assignment creates. -/
def plain (v : Value) : Descriptor := data v true true true

/-- Writable and configurable, but left out of enumerations. -/
def hidden (v : Value) : Descriptor := data v true false true

def accessor (get set : Option Value) (enumerable configurable : Bool) : Descriptor :=
  ⟨⟨.unspecified, .given enumerable, .given configurable⟩,
    .accessor (some (get.getD .undefined)) (some (set.getD .undefined))⟩

def lazy (cell : CellRef) (writable enumerable configurable : Bool) : Descriptor :=
  ⟨.ofBools writable enumerable configurable, .lazy cell⟩

def bound (scope : ScopeRef) (name : String) (enumerable configurable : Bool) : Descriptor :=
  ⟨.ofBools true enumerable configurable, .bound scope name⟩

def withValue (d : Descriptor) (v : Value) : Descriptor :=
  { d with form := .data (some v) }

def withWritable (d : Descriptor) (b : Bool) : Descriptor :=
  { attributes := { d.attributes with writableBits := .given b }
    form := match d.form with
      | .generic => .data none
      | form => form }

def withEnumerable (d : Descriptor) (b : Bool) : Descriptor :=
  { d with attributes := { d.attributes with enumerableBits := .given b } }

def withConfigurable (d : Descriptor) (b : Bool) : Descriptor :=
  { d with attributes := { d.attributes with configurableBits := .given b } }

def withGet (d : Descriptor) (v : Value) : Descriptor :=
  { attributes := { d.attributes with writableBits := .unspecified }
    form := match d.form with
      | .accessor _ set => .accessor (some v) set
      | _ => .accessor (some v) none }

def withSet (d : Descriptor) (v : Value) : Descriptor :=
  { attributes := { d.attributes with writableBits := .unspecified }
    form := match d.form with
      | .accessor get _ => .accessor get (some v)
      | _ => .accessor none (some v) }

/-! ## Reading -/

def isWritable (d : Descriptor) : Bool := d.attributes.writable == some true

theorem isWritable_iff {d : Descriptor} :
    d.isWritable = true ↔ d.attributes.writableBits = .given true := by
  rw [isWritable, beq_iff_eq]
  exact Attribute.read_eq_some

def isEnumerable (d : Descriptor) : Bool := d.attributes.enumerable == some true

def isConfigurable (d : Descriptor) : Bool := d.attributes.configurable == some true

def isAccessor (d : Descriptor) : Bool :=
  match d.form with
  | .accessor _ _ => true
  | _ => false

/-- A property with a value of any kind, or one that specifies whether it is writable. -/
def isData (d : Descriptor) : Bool :=
  match d.form with
  | .data _ | .lazy _ | .bound _ _ => true
  | .generic | .accessor _ _ => d.attributes.writable.isSome

def isGeneric (d : Descriptor) : Bool := !d.isAccessor && !d.isData

def value? (d : Descriptor) : Option Value :=
  match d.form with
  | .data v => v
  | _ => none

def getter? (d : Descriptor) : Option Value :=
  match d.form with
  | .accessor get _ => get
  | _ => none

def setter? (d : Descriptor) : Option Value :=
  match d.form with
  | .accessor _ set => set
  | _ => none

/-- The property with the value of a cell in place of the cell. -/
def resolveCell (d : Descriptor) (c : CellRef) (v : Value) : Descriptor :=
  match d.form with
  | .lazy c' => if c' = c then { d with form := .data (some v) } else d
  | _ => d

/-! ## Completing and applying patches -/

/-- Gives every unspecified field its default: `undefined`, or what the bit of the attribute
says, which is `false` unless it was set without being specified. -/
def complete (d : Descriptor) : Descriptor :=
  let a := d.attributes
  let enumerable := a.enumerableBits.specify
  let configurable := a.configurableBits.specify
  let valued : Attributes := ⟨a.writableBits.specify, enumerable, configurable⟩
  match d.form with
  | .generic => ⟨valued, .data (some .undefined)⟩
  | .data v => ⟨valued, .data (some (v.getD .undefined))⟩
  | .accessor get set =>
    ⟨⟨a.writableBits, enumerable, configurable⟩,
      .accessor (some (get.getD .undefined)) (some (set.getD .undefined))⟩
  | .lazy _ | .bound _ _ => ⟨valued, d.form⟩

/-- Whether `patch` turns a data property into an accessor or back. -/
def changesKind (current patch : Descriptor) : Bool :=
  !patch.isGeneric && patch.isAccessor != current.isAccessor

/-- Whether the patch leaves the field unspecified or gives it the value it has. -/
def agrees (patch current : Option Value) : Bool :=
  match patch with
  | none => true
  | some v => Value.sameValue v (current.getD .undefined)

/-- Whether a patch to an existing property is allowed. -/
def permits (current patch : Descriptor) : Bool :=
  if current.isConfigurable then true
  else if patch.attributes.configurable == some true then false
  else if patch.attributes.enumerable.any (· != current.isEnumerable) then false
  else if changesKind current patch then false
  else if current.isAccessor then
    agrees patch.getter? current.getter? && agrees patch.setter? current.setter?
  else if current.isWritable then true
  else patch.attributes.writable != some true && agrees patch.value? current.value?

/-- The patched property, when the patch is allowed. -/
def patched (current patch : Descriptor) : Descriptor :=
  if changesKind current patch then
    let a := { current.attributes with writableBits := .unspecified }
    let valued := { current.attributes with writableBits := .given false }
    match patch.form with
    | .accessor get set =>
      ⟨a.override patch.attributes,
        .accessor (some (get.getD .undefined)) (some (set.getD .undefined))⟩
    | .data v => ⟨valued.override patch.attributes, .data (some (v.getD .undefined))⟩
    | form => ⟨valued.override patch.attributes, form⟩
  else
    ⟨current.attributes.override patch.attributes,
      match current.form, patch.form with
      | .accessor get set, .accessor get' set' => .accessor (get'.or get) (set'.or set)
      | _, .data (some v) => .data (some v)
      | _, .lazy cell => .lazy cell
      | _, .bound scope name => .bound scope name
      | form, _ => form⟩

end Descriptor

end Ecma
