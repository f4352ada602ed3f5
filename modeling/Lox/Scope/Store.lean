import Lox.Value

/-!
Scopes that are linked to their parents. A name means the nearest binding on the way outward, and an
assignment changes that same binding.
-/

namespace Lox

/-- The names bound in one scope, each once. -/
abbrev Bindings := List (String × Value)

namespace Bindings

def get? (b : Bindings) (name : String) : Option Value := b.lookup name

def contains (b : Bindings) (name : String) : Bool := b.any (·.1 == name)

/-- Binds a name. A name that is bound keeps its place and gets another value. -/
def set (b : Bindings) (name : String) (value : Value) : Bindings :=
  match b with
  | [] => [(name, value)]
  | (n, v) :: rest =>
      if n == name then (name, value) :: rest else (n, v) :: set rest name value

end Bindings

/-- A scope by its place in a store. -/
structure ScopeId where
  place : Nat
  deriving DecidableEq, Repr, Inhabited

structure Scope where
  bindings : Bindings := []
  parent : Option ScopeId := none
  deriving DecidableEq, Repr, Inhabited

/-- Scopes in the order in which they were made. A parent is there before its children. -/
structure ScopeStore where
  scopes : Array Scope := #[]
  deriving DecidableEq, Repr, Inhabited

namespace ScopeStore

def empty : ScopeStore := {}

def get? (s : ScopeStore) (id : ScopeId) : Option Scope := s.scopes[id.place]?

/-- Adds a scope. -/
def add (s : ScopeStore) (scope : Scope) : ScopeId × ScopeStore :=
  (⟨s.scopes.size⟩, ⟨s.scopes.push scope⟩)

/-- Adds an empty scope without a parent. -/
def addRoot (s : ScopeStore) : ScopeId × ScopeStore := s.add {}

/-- Adds an empty scope inside another one. -/
def addChild (s : ScopeStore) (parent : ScopeId) : ScopeId × ScopeStore :=
  s.add { parent := some parent }

/-- Adds a scope with the bindings of another one of its own, and with the same parent. -/
def addCopy (s : ScopeStore) (id : ScopeId) : ScopeId × ScopeStore :=
  s.add ((s.get? id).getD {})

/-- Forgets the scope that was added last. -/
def dropLast (s : ScopeStore) : ScopeStore := ⟨s.scopes.pop⟩

/-- Binds a name in a scope, whether it is bound there or not. -/
def define (s : ScopeStore) (id : ScopeId) (name : String) (value : Value) : ScopeStore :=
  ⟨s.scopes.modify id.place fun scope =>
    { scope with bindings := scope.bindings.set name value }⟩

/-- The nearest scope, among the first `n` from a scope outward, that binds a name. -/
def nearestWithin (s : ScopeStore) (name : String) : Nat → ScopeId → Option ScopeId
  | 0, _ => none
  | n + 1, id =>
      match s.get? id with
      | none => none
      | some scope =>
          if scope.bindings.contains name then some id
          else
            match scope.parent with
            | none => none
            | some parent => nearestWithin s name n parent

/-- The nearest scope from a scope outward that binds a name. -/
def nearest (s : ScopeStore) (id : ScopeId) (name : String) : Option ScopeId :=
  s.nearestWithin name (id.place + 1) id

/-- The value of a name seen from a scope. -/
def lookup (s : ScopeStore) (id : ScopeId) (name : String) : Option Value := do
  let owner ← s.nearest id name
  let scope ← s.get? owner
  scope.bindings.get? name

/-- Gives another value to a name seen from a scope, if it is bound. -/
def assign? (s : ScopeStore) (id : ScopeId) (name : String) (value : Value) : Option ScopeStore :=
  (s.nearest id name).map fun owner => s.define owner name value

end ScopeStore
end Lox
