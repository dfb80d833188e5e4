import RubixDb.Catalog.Schema

/-!
# Indexes and constraints in the catalog

The rows of `system.indexes`, `system.foreign_keys` and `system.constraints`
(`src/catalog/schema.rs`), as far as something reads them.
-/

namespace RubixDb

inductive IndexKind where
  | primary
  | unique
  | nonUnique
deriving DecidableEq, Repr

inductive IndexState where
  | ready
  | building
  | failed
  | dropping
deriving DecidableEq, Repr

structure IndexRow where
  indexId : Nat
  tableId : Nat
  name : String
  kind : IndexKind
  columnOrdinals : List Nat
  state : IndexState
deriving DecidableEq, Repr

inductive FkAction where
  | noAction
  | restrict
  | cascade
  | setNull
  | setDefault
deriving DecidableEq, Repr

structure ForeignKeyRow where
  fkId : Nat
  tableId : Nat
  name : String
  childOrdinals : List Nat
  parentTableId : Nat
  parentOrdinals : List Nat
  onDelete : FkAction
  onUpdate : FkAction
deriving DecidableEq, Repr

/-- A `CHECK` constraint; the expression is kept as text. -/
structure ConstraintRow where
  constraintId : Nat
  tableId : Nat
  name : String
  checkExpression : String
deriving DecidableEq, Repr

end RubixDb
