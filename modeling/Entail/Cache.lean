import Entail.Formula.Order
import Entail.Simplify.Run

set_option autoImplicit false

/-! # Caches

Results of simplification and answers about implications are kept in tables that count how often
they were of use. A table never replaces an entry; one with a capacity is emptied before an entry is
added to it when it is full. -/

namespace Entail

/-! ## Results of simplification -/

/-- A formula, and the mode in which it is simplified. -/
structure SimplificationKey where
  formula : Formula
  mode : SimplifyMode

namespace SimplificationKey

instance : BEq SimplificationKey := ⟨fun a b => a.formula == b.formula && a.mode == b.mode⟩

end SimplificationKey

/-- Results of simplification by formula and mode. -/
structure SimplificationCache where
  entries : List (SimplificationKey × Simplified)
  capacity : Option Nat
  hits : Nat
  misses : Nat

namespace SimplificationCache

def empty (capacity : Option Nat) : SimplificationCache := ⟨[], capacity, 0, 0⟩

def get? (c : SimplificationCache) (key : SimplificationKey) : Option Simplified :=
  (c.entries.find? fun entry => entry.1 == key).map (·.2)

def size (c : SimplificationCache) : Nat := c.entries.length

def isEmpty (c : SimplificationCache) : Bool := c.entries.isEmpty

/-- Drop all entries. -/
def clear (c : SimplificationCache) : SimplificationCache := { c with entries := [] }

/-- The table is as large as it may be. -/
def isFull (c : SimplificationCache) : Bool :=
  match c.capacity with
  | some n => decide (n ≤ c.size)
  | none => false

/-- Store a result unless there is one for the key, after emptying a full table. The result that is
    stored in the end comes with the table. -/
def insert (c : SimplificationCache) (key : SimplificationKey) (value : Simplified) :
    Simplified × SimplificationCache :=
  let c := if c.isFull then c.clear else c
  match c.get? key with
  | some stored => (stored, c)
  | none => (value, { c with entries := (key, value) :: c.entries })

/-- Note that a look-up found a result. -/
def hit (c : SimplificationCache) : SimplificationCache := { c with hits := c.hits + 1 }

/-- Note that a look-up found nothing. -/
def miss (c : SimplificationCache) : SimplificationCache := { c with misses := c.misses + 1 }

end SimplificationCache

/-! ## Answers about implications -/

/-- Two formulas, and the variables quantified existentially in the second. -/
structure ImplicationKey where
  left : Formula
  right : Formula
  existentials : VarSet

namespace ImplicationKey

instance : BEq ImplicationKey :=
  ⟨fun a b => a.left == b.left && a.right == b.right && a.existentials == b.existentials⟩

end ImplicationKey

/-- Answers about implications. -/
structure ImplicationCache where
  entries : List (ImplicationKey × Bool)
  hits : Nat
  misses : Nat

namespace ImplicationCache

def empty : ImplicationCache := ⟨[], 0, 0⟩

def get? (c : ImplicationCache) (key : ImplicationKey) : Option Bool :=
  (c.entries.find? fun entry => entry.1 == key).map (·.2)

def size (c : ImplicationCache) : Nat := c.entries.length

def isEmpty (c : ImplicationCache) : Bool := c.entries.isEmpty

/-- Store an answer unless there is one; the answer that is stored in the end comes with the
    table. -/
def insert (c : ImplicationCache) (key : ImplicationKey) (value : Bool) :
    Bool × ImplicationCache :=
  match c.get? key with
  | some stored => (stored, c)
  | none => (value, { c with entries := (key, value) :: c.entries })

/-- Note that a look-up found an answer. -/
def hit (c : ImplicationCache) : ImplicationCache := { c with hits := c.hits + 1 }

/-- Note that a look-up found nothing. -/
def miss (c : ImplicationCache) : ImplicationCache := { c with misses := c.misses + 1 }

end ImplicationCache

end Entail
