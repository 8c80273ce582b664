import Entail.Sorted
import Entail.SortName

set_option autoImplicit false

/-! # Symbols and their signatures

A symbol is identified by its name and kind. Its signatures travel with it, so that the sort of an
application can be computed where the application is built, but they take no part in comparing two
symbols: `Symbol.cmp` sees name and kind only. -/

namespace Entail

/-- How applications of a symbol may be taken apart. -/
inductive SymbolKind where
  /-- injective and disjoint from every other constructor -/
  | constructor
  /-- uninterpreted: applications are never decomposed -/
  | function
  /-- an abstraction, injective only when pattern folding is on -/
  | pattern
  deriving DecidableEq, Inhabited

namespace SymbolKind

/-- Kinds are ordered as constructors, functions, patterns. -/
def rank : SymbolKind → Nat
  | .constructor => 0
  | .function => 1
  | .pattern => 2

def cmp (a b : SymbolKind) : Ordering := compare a.rank b.rank

/-- The written name of a kind. -/
def text : SymbolKind → String
  | .constructor => "constructor"
  | .function => "function"
  | .pattern => "pattern"

def ofText? : String → Option SymbolKind
  | "constructor" => some .constructor
  | "function" => some .function
  | "pattern" => some .pattern
  | _ => none

theorem ofText?_text (k : SymbolKind) : ofText? k.text = some k := by
  cases k <;> rfl

end SymbolKind

/-- Argument sorts and the result sort they give. -/
structure Signature where
  params : List SortName
  result : SortName
  deriving DecidableEq, Inhabited

/-- A named symbol with its signatures. -/
structure Symbol where
  name : String
  kind : SymbolKind
  signatures : List Signature
  deriving DecidableEq, Inhabited

namespace Symbol

def isConstructor (s : Symbol) : Bool := s.kind == .constructor

def isPattern (s : Symbol) : Bool := s.kind == .pattern

/-- More than one signature. -/
def isOverloaded (s : Symbol) : Bool := s.signatures.length > 1

/-- Symbols are ordered by name, then kind. -/
def cmp (a b : Symbol) : Ordering :=
  (compare a.name b.name).then (a.kind.cmp b.kind)

/-- Equal name and kind. -/
def same (a b : Symbol) : Bool := a.name == b.name && a.kind == b.kind

end Symbol

end Entail
