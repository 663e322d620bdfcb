import Reckoner.CompoundUnit.Label
import Reckoner.Session.Basic

/-!
# `Reckoner.Formula.Bindings` — what symbols stand for

A table of variables gives every symbol the value and unit of the first variable that carries it;
later variables with the same symbol are shadowed. Symbols are compared without surrounding
blanks. `setValue?` replaces the value of one variable and keeps all else, `assign` does so as far as
possible.
-/

namespace Reckoner

/-- What a symbol stands for, and the id of the variable it belongs to. -/
structure Binding where
  value : Float
  unit : CompoundUnit
  owner : String

/-- Symbols with their bindings, each symbol once. -/
structure Bindings where
  entries : List (String × Binding)

namespace Bindings

/-- The binding of a symbol. -/
def find? (b : Bindings) (symbol : String) : Option Binding := b.entries.lookup symbol

/-- The symbol is bound. -/
def contains (b : Bindings) (symbol : String) : Bool := (b.find? symbol).isSome

/-- Binds the symbol of a variable, unless it is bound already. -/
def add (b : Bindings) (v : Variable) : Bindings :=
  if b.contains v.key then b
  else ⟨b.entries ++ [(v.key, ⟨v.value, CompoundUnit.parse v.unit, v.id⟩)]⟩

/-- The bindings of a table of variables. -/
def ofVariables (table : List Variable) : Bindings := table.foldl add ⟨[]⟩

/-- The variable owns the binding of its symbol. -/
def owns (b : Bindings) (v : Variable) : Bool :=
  match b.find? v.key with
  | some binding => binding.owner == v.id
  | none => false

/-- Replaces the value of a symbol. -/
def replace (b : Bindings) (symbol : String) (value : Float) : Bindings :=
  ⟨b.entries.map fun entry =>
    if entry.1 == symbol then (entry.1, { entry.2 with value := value }) else entry⟩

/-- The bindings with a new value for a variable, or nothing when its symbol is unbound or belongs
    to another variable. -/
def setValue? (b : Bindings) (v : Variable) (value : Float) : Option Bindings :=
  if b.owns v then some (b.replace v.key value) else none

/-- The bindings after an attempt to give a variable a new value: nothing changes when it is
    refused. -/
def assign (b : Bindings) (v : Variable) (value : Float) : Bindings :=
  (b.setValue? v value).getD b

end Bindings

end Reckoner
