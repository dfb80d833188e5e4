import RubixDb.Relational.Store

/-!
# The cached lists of the catalog

`CatalogService::foreign_keys` and `CatalogService::check_constraints` serve a list from a
cache that a change to the catalog empties afterwards, in two steps: the generation goes
up, then the cache is cleared. A reader that finds the cache empty takes the generation,
reads the list from the store and fills the cache if the generation is still the same.
Both lists work the same way.
-/

namespace RubixDb

open Lib

structure Cached (α : Type) where
  entry : Option (List α)
  generation : Nat
deriving DecidableEq

/-- How far a reader of a cached list has come. -/
inductive Reading (α : Type) where
  | start
  | missed
  | counted (generation : Nat)
  | scanned (generation : Nat) (list : List α)
deriving DecidableEq

/-- One step of a reader; the list is what it returns in the end. -/
def Reading.next {α : Type} (cached : Cached α) (stored : List α) :
    Reading α → Cached α × (Reading α ⊕ List α)
  | .start =>
    match cached.entry with
    | some list => (cached, .inr list)
    | none => (cached, .inl .missed)
  | .missed => (cached, .inl (.counted cached.generation))
  | .counted generation => (cached, .inl (.scanned generation stored))
  | .scanned generation list =>
    (if cached.generation = generation then { cached with entry := some list } else cached,
      .inr list)

structure Caches where
  checks : Cached ConstraintRow
  foreignKeys : Cached ForeignKeyRow
deriving DecidableEq

/-- A catalog that has just been opened. -/
def Caches.empty : Caches := ⟨⟨none, 0⟩, ⟨none, 0⟩⟩

/-- The two steps of `invalidate_checks` and of `invalidate_foreign_keys`. -/
inductive Invalidation where
  | bumpChecks
  | clearChecks
  | bumpForeignKeys
  | clearForeignKeys
deriving DecidableEq

def Invalidation.run (c : Caches) : Invalidation → Caches
  | .bumpChecks => { c with checks := { c.checks with generation := c.checks.generation + 1 } }
  | .clearChecks => { c with checks := { c.checks with entry := none } }
  | .bumpForeignKeys =>
    { c with foreignKeys := { c.foreignKeys with generation := c.foreignKeys.generation + 1 } }
  | .clearForeignKeys => { c with foreignKeys := { c.foreignKeys with entry := none } }

/-! ## What the threads share -/

inductive LockId where
  | epoch (tableId : Nat)
  /-- `ddl_lock`. -/
  | ddl
deriving DecidableEq

abbrev RelEffect := Effect LockId StoreKey StoreValue

abbrev RelSeen := Seen StoreKey StoreValue Caches

/-- What a reader that runs without interruption returns. -/
def Cached.list {α : Type} (c : Cached α) (stored : List α) : List α := c.entry.getD stored

end RubixDb
