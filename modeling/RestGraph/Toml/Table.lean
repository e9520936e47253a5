import RestGraph.Toml.Fault
import RestGraph.Value.Basic

namespace RestGraph.Toml

/-!
# Tables under construction

A header opens a table, a dotted key opens those on its way. A table that a header
has opened is not opened again, and one that dotted keys have opened is open to
dotted keys under the same header only. Values are never opened.
-/

inductive Opened where
  /-- Only headers of tables inside it. -/
  | implicit
  /-- A dotted key under the header with this number. -/
  | dotted (header : Nat)
  | header
deriving DecidableEq

inductive Node where
  | fixed (v : Value)
  | table (opened : Opened) (members : List (String × Node))
  /-- The tables of a list, of which the last one is open. -/
  | tables (earlier : List (List (String × Node))) (last : List (String × Node))
deriving Inhabited

abbrev Members := RestGraph.Table String Node

mutual

def Node.value : Node → Value
  | .fixed v => v
  | .table _ ms => .map (memberValues ms)
  | .tables earlier last => .list (tableValues earlier ++ [.map (memberValues last)])

def memberValues : List (String × Node) → List (String × Value)
  | [] => []
  | (k, n) :: ms => (k, n.value) :: memberValues ms

def tableValues : List (List (String × Node)) → List Value
  | [] => []
  | ms :: rest => .map (memberValues ms) :: tableValues rest

end

inductive Path where
  | ofHeader
  | ofKey (header : Nat)

def Path.enter : Path → Opened → Option Opened
  | .ofHeader, o => some o
  | .ofKey n, .implicit => some (.dotted n)
  | .ofKey n, .dotted m => if m == n then some (.dotted m) else none
  | .ofKey _, .header => none

def Path.fresh : Path → Opened
  | .ofHeader => .implicit
  | .ofKey n => .dotted n

/-- Changes the members of the table at the end of a path, opening tables on the way; an array
or inline table on the way is `refused`. -/
def alter (path : Path) (refused : Reason) (change : Members → Except Reason Members) :
    List String → List String → Members → Except Reason Members
  | _, [], ms => change ms
  | before, k :: ks, ms =>
      let here := before ++ [k]
      match RestGraph.Table.get? ms k with
      | none =>
          (alter path refused change here ks []).map fun inner =>
            RestGraph.Table.insert ms k (.table path.fresh inner)
      | some (.table opened inner) =>
          match path.enter opened with
          | none => .error (.redefined here)
          | some opened =>
              (alter path refused change here ks inner).map fun inner =>
                RestGraph.Table.insert ms k (.table opened inner)
      | some (.tables earlier last) =>
          match path with
          | .ofKey _ => .error (.redefined here)
          | .ofHeader =>
              (alter path refused change here ks last).map fun last =>
                RestGraph.Table.insert ms k (.tables earlier last)
      | some (.fixed (.list _)) => .error refused
      | some (.fixed (.map _)) => .error refused
      | some (.fixed _) => .error .overwritten

def openTable (key : List String) (ms : Members) : Except Reason Members :=
  alter .ofHeader (.declaredTwice key) (fun inner =>
    match key.getLast? with
    | none => .ok inner
    | some k =>
        match RestGraph.Table.get? inner k with
        | none => .ok (RestGraph.Table.insert inner k (.table .header []))
        | some (.table .implicit deep) => .ok (RestGraph.Table.insert inner k (.table .header deep))
        | some (.fixed (.list _)) => .error (.declaredTwice key)
        | some (.fixed (.map _)) => .error (.declaredTwice key)
        | some (.fixed _) => .error .overwritten
        | some _ => .error (.declaredTwice key)) [] key.dropLast ms

def appendTable (key : List String) (ms : Members) : Except Reason Members :=
  alter .ofHeader (.immutable key) (fun inner =>
    match key.getLast? with
    | none => .ok inner
    | some k =>
        match RestGraph.Table.get? inner k with
        | none => .ok (RestGraph.Table.insert inner k (.tables [] []))
        | some (.tables earlier last) =>
            .ok (RestGraph.Table.insert inner k (.tables (earlier ++ [last]) []))
        | some (.fixed (.list _)) => .error (.immutable key)
        | some (.fixed (.map _)) => .error (.immutable key)
        | some _ => .error .overwritten) [] key.dropLast ms

def setValue (number : Nat) (header key : List String) (v : Value) (ms : Members) :
    Except Reason Members :=
  let refused := Reason.immutable (header ++ key.dropLast)
  alter .ofHeader refused (alter (.ofKey number) refused (fun inner =>
    match key.getLast? with
    | none => .ok inner
    | some k =>
        if RestGraph.Table.contains inner k then .error .overwritten
        else .ok (RestGraph.Table.insert inner k (.fixed v))) header key.dropLast)
    [] header ms

def setInline (key : List String) (v : Value) (ms : Members) : Except Reason Members :=
  alter (.ofKey 0) (.immutable key) (fun inner =>
    match key.getLast? with
    | none => .ok inner
    | some k =>
        match RestGraph.Table.get? inner k with
        | none => .ok (RestGraph.Table.insert inner k (.fixed v))
        | some (.fixed (.list _)) => .error (.immutable key)
        | some (.fixed (.map _)) => .error (.immutable key)
        | some _ => .error (.duplicateKey k)) [] key.dropLast ms

end RestGraph.Toml
