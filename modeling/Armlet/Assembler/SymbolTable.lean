import Std.Data.TreeMap
import Armlet.Word
import Armlet.Assembler.Diagnostic

/-!
# The symbol table

Names and their addresses. A name that is bound again takes the new address. The
table is listed by address, and names that share an address by name.
-/

namespace Armlet

/-- A finite map from names to addresses. -/
structure SymbolTable where
  entries : Std.TreeMap String Word

namespace SymbolTable

/-- A table without names. -/
def empty : SymbolTable := ⟨∅⟩

/-- Binds a name; an earlier binding of it is forgotten. -/
def insert (table : SymbolTable) (name : String) (addr : Word) : SymbolTable :=
  ⟨table.entries.insert name addr⟩

/-- Binds names one after another. -/
def insertAll (table : SymbolTable) (bindings : List (String × Word)) : SymbolTable :=
  bindings.foldl (fun table (name, addr) => table.insert name addr) table

/-- The address of a name, if it is bound. -/
def find? (table : SymbolTable) (name : String) : Option Word := table.entries[name]?

/-- The address of a name that has to be bound. -/
def lookup (table : SymbolTable) (name : String) : Except SourceError Word :=
  match table.find? name with
  | some addr => .ok addr
  | none => .error (.unknownSymbol name)

/-- The number of names. -/
def size (table : SymbolTable) : Nat := table.entries.size

/-- Whether no name is bound. -/
def isEmpty (table : SymbolTable) : Bool := table.entries.isEmpty

/-- The order of a listing: by address, then by name. -/
def entryLe (a b : String × Word) : Bool :=
  decide (a.2 < b.2) || (a.2 == b.2 && decide (a.1 ≤ b.1))

/-- Every name with its address, in the order of a listing. -/
def listing (table : SymbolTable) : List (String × Word) :=
  table.entries.toList.mergeSort entryLe

end SymbolTable

end Armlet
