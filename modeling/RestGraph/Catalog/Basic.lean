import RestGraph.Failure
import RestGraph.Operation.Basic

namespace RestGraph

/-!
# Catalogs

A catalog is what a description offers: its schemas, under their own names for
outputs and with a suffix for inputs, and its operations. What a response holds is of
the output mode: objects and the types of their fields. What a request holds is of the
input mode: arguments and the fields of input objects.
-/

inductive Mode where
  | output
  | input
deriving DecidableEq, Repr

structure Catalog where
  outputs : Table String Value
  inputs : Table String Value
  operations : Table Label Operation
  config : Config
  /-- Whether prepared requests can be handed over. -/
  fetches : Bool

namespace Catalog

def empty (config : Config) (fetches : Bool) : Catalog := ⟨[], [], [], config, fetches⟩

def define (c : Catalog) (name : String) (schema : Value) : Catalog :=
  { c with
    outputs := Table.insert c.outputs name schema
    inputs := Table.insert c.inputs (name ++ Operation.inputSuffix) schema }

def addOperation (c : Catalog) (o : Operation) : Catalog :=
  { c with operations := Table.insert c.operations o.id o }

end Catalog

end RestGraph
