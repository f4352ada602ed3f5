import Lox.Scope.Store

/-!
The scopes of a run: a global one, and those opened inside it, each in the one opened before.
-/

namespace Lox

/-- A store of linked scopes, and the scopes that are open besides the global one, innermost
first. -/
structure Environment where
  store : ScopeStore
  opened : List ScopeId
  deriving DecidableEq, Repr, Inhabited

namespace Environment

def globalScope : ScopeId := ⟨0⟩

/-- Only the global scope, with nothing bound. -/
def empty : Environment := ⟨ScopeStore.empty.addRoot.2, []⟩

/-- How many scopes are open, the global one included. -/
def depth (e : Environment) : Nat := e.opened.length + 1

def innermost (e : Environment) : ScopeId := e.opened.head?.getD globalScope

/-- Opens a scope inside the innermost one. -/
def push (e : Environment) : Environment :=
  let inner := e.innermost
  let ⟨store, opened⟩ := e
  let (id, store) := store.addChild inner
  ⟨store, id :: opened⟩

/-- Closes the innermost scope. The global scope stays open. -/
def pop (e : Environment) : Environment :=
  match e with
  | ⟨store, []⟩ => ⟨store, []⟩
  | ⟨store, _ :: opened⟩ => ⟨store.dropLast, opened⟩

/-- Binds a name in the innermost scope. -/
def define (e : Environment) (name : String) (value : Value) : Environment :=
  let inner := e.innermost
  let ⟨store, opened⟩ := e
  ⟨store.define inner name value, opened⟩

def lookup (e : Environment) (name : String) : Option Value := e.store.lookup e.innermost name

/-- Gives another value to the nearest binding of a name, if there is one. -/
def assign? (e : Environment) (name : String) (value : Value) : Option Environment :=
  let inner := e.innermost
  let ⟨store, opened⟩ := e
  (store.assign? inner name value).map fun store => ⟨store, opened⟩

end Environment
end Lox
