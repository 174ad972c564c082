/-
Tables of names and addresses.

A table only grows, and keeps its entries in the order in which they came.  Labels live in a table
with distinct names, relocation sites in one whose names may repeat.

* `SymbolTable.entryFor` — the entry that a name and an address make, or the reason why the table
  refuses them;
* `SymbolTable.insert` — the table with that entry at its end;
* `SymbolTable.lookup` — the address of the first entry with a name.

Design notes: `entryFor` only reads the table and `push` only extends it, so a refused entry cannot
leave anything behind.
-/
import MipsAssembler.Error

namespace MipsAssembler

/-- A name with an address. -/
structure Symbol where
  name : String
  address : Nat
deriving DecidableEq, Repr

/-- A row of a printed table. -/
def Symbol.render (s : Symbol) : String := Numeral.decimal s.address ++ "\t" ++ s.name ++ "\n"

/-- Whether a name may be entered twice. -/
inductive NameMode
  | distinct
  | repeating
deriving DecidableEq, Repr

/-- Symbols in the order of their entry. -/
structure SymbolTable where
  mode : NameMode
  symbols : Array Symbol := #[]
deriving DecidableEq, Repr

namespace SymbolTable

/-- A table without entries. -/
def empty (mode : NameMode) : SymbolTable := { mode }

/-- Whether some entry has this name. -/
def hasName (t : SymbolTable) (name : String) : Bool := t.symbols.any (·.name == name)

/-- The entry for `name` at `address`: the address has to be a multiple of 4 and, where names are
distinct, the name has to be new. -/
def entryFor (t : SymbolTable) (name : String) (address : Nat) : Except Error Symbol :=
  if address % 4 ≠ 0 then .error (.misalignedAddress address)
  else if t.mode = .distinct ∧ t.hasName name then .error (.duplicateName name)
  else .ok ⟨name, address⟩

/-- The table with `s` at its end. -/
def push (t : SymbolTable) (s : Symbol) : SymbolTable := { t with symbols := t.symbols.push s }

/-- The table with `s`, if there is one, at its end. -/
def pushIfAny (t : SymbolTable) : Option Symbol → SymbolTable
  | some s => t.push s
  | none => t

/-- The table with an entry for `name` at `address`. -/
def insert (t : SymbolTable) (name : String) (address : Nat) : Except Error SymbolTable :=
  (t.entryFor name address).map t.push

/-- A table of the given entries, or the error of the first one that is refused. -/
def ofEntries (mode : NameMode) (entries : List (String × Nat)) : Except Error SymbolTable :=
  entries.foldlM (fun t (name, address) => t.insert name address) (empty mode)

/-- The address of the first entry called `name`. -/
def lookup (t : SymbolTable) (name : String) : Except Error Nat :=
  match t.symbols.find? (·.name == name) with
  | some s => .ok s.address
  | none => .error (.notFound name)

/-- How many entries there are. -/
def size (t : SymbolTable) : Nat := t.symbols.size

/-- The rows of the table, one line each. -/
def render (t : SymbolTable) : String := String.join (t.symbols.toList.map Symbol.render)

/-! ### The entries after each operation -/

@[simp] theorem toList_symbols_push (t : SymbolTable) (s : Symbol) :
    (t.push s).symbols.toList = t.symbols.toList ++ [s] := by
  simp [push]

@[simp] theorem mode_push (t : SymbolTable) (s : Symbol) : (t.push s).mode = t.mode := rfl

@[simp] theorem toList_symbols_pushIfAny (t : SymbolTable) (s : Option Symbol) :
    (t.pushIfAny s).symbols.toList = t.symbols.toList ++ s.toList := by
  cases s <;> simp [pushIfAny]

@[simp] theorem mode_pushIfAny (t : SymbolTable) (s : Option Symbol) :
    (t.pushIfAny s).mode = t.mode := by
  cases s <;> rfl

end SymbolTable

end MipsAssembler
