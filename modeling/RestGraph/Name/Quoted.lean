import RestGraph.Failure

namespace RestGraph.Name

/-!
# Registries in messages
-/

/-- What is reported when a text gets another name than its own because that one is taken. -/
def Registry.note (r : Registry) (text name : String) : List Record :=
  match r.holder? text with
  | some (base, holder) =>
      [⟨.debug, "Name `" ++ base ++ "` is taken by `" ++ holder ++ "`, using `" ++ name ++
        "` for `" ++ text ++ "`"⟩]
  | none => []

def Registry.quoted (r : Registry) : String :=
  "NameRegistry(" ++ (Value.map (r.items.map fun e => (e.1, .text e.2))).quoted ++ ")"

end RestGraph.Name
