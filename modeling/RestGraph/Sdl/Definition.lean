namespace RestGraph.Sdl

/-!
# Type definitions

The definitions of a schema as they are written down, with types by name.
-/

inductive TypeExpr where
  | named (name : String)
  | list (item : TypeExpr)
  | nonNull (inner : TypeExpr)
deriving DecidableEq, Repr

structure InputDef where
  name : String
  type : TypeExpr
  description : Option String
deriving DecidableEq, Repr

structure FieldDef where
  name : String
  arguments : List InputDef
  type : TypeExpr
  description : Option String
deriving DecidableEq, Repr

inductive Definition where
  | object (name : String) (description : Option String) (fields : List FieldDef)
  | input (name : String) (description : Option String) (fields : List InputDef)
  | enumeration (name : String) (members : List String)
deriving DecidableEq, Repr

def Definition.name : Definition → String
  | object name _ _ => name
  | input name _ _ => name
  | enumeration name _ => name

end RestGraph.Sdl
