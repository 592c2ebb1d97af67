import Sylar.Lib.Text

/-!
# `Lib.Yaml`: trees of YAML nodes

A node is null, a scalar with its text, a sequence, or a map. The entries of a map stand in the order
of the document, and their keys are scalars.

`get`, `elements` and `asString` are the accesses of yaml-cpp: `node[key]`, the nodes `node[i]` for each
`i` below `node.size()`, and `node.as<std::string>()`. A scalar has no members, and only a scalar has
a text; the library throws otherwise. `ofFields` and `ofItems` build a node by assignments and by
`push_back`, and leave a null node when there are none.

`paths` is the list of all nodes that can be reached through maps, each with its path of keys, a node
before its children. `allKeys` asks a condition of each key.
-/

set_option autoImplicit false

namespace Lib.Yaml

inductive Node where
  | null
  | scalar (text : List UInt8)
  | sequence (items : List Node)
  | map (entries : List (List UInt8 × Node))

/-- The exceptions of the accesses. -/
inductive Exception where
  | badSubscript
  | badConversion
  deriving DecidableEq, Repr

namespace Node

/-- The value of the first entry with a key. -/
def lookup (key : List UInt8) (entries : List (List UInt8 × Node)) : Option Node :=
  (entries.find? fun e => e.1 == key).map Prod.snd

/-- `node[key]`, `none` when it is not defined. -/
def get (key : List UInt8) : Node → Except Exception (Option Node)
  | .map entries => .ok (lookup key entries)
  | .scalar _ => .error .badSubscript
  | _ => .ok none

/-- `node[0]`, `node[1]` and so on. In a map they are the values of the keys `0`, `1`, ..., and null
where there is no such key. -/
def elements : Node → List Node
  | .sequence items => items
  | .map entries =>
    (List.range entries.length).map fun i => (lookup (numeral 10 i) entries).getD .null
  | _ => []

/-- `node.as<std::string>()`. -/
def asString : Node → Except Exception (List UInt8)
  | .scalar text => .ok text
  | _ => .error .badConversion

def ofFields : List (List UInt8 × Node) → Node
  | [] => .null
  | entries => .map entries

def ofItems : List Node → Node
  | [] => .null
  | items => .sequence items

mutual

/-- The nodes below `node` with their paths, where `path` is the path of the node itself. -/
def paths (path : List (List UInt8)) : Node → List (List (List UInt8) × Node)
  | .map entries => (path, .map entries) :: entriesPaths path entries
  | node => [(path, node)]

def entriesPaths (path : List (List UInt8)) :
    List (List UInt8 × Node) → List (List (List UInt8) × Node)
  | [] => []
  | (key, node) :: entries => node.paths (path ++ [key]) ++ entriesPaths path entries

end

mutual

/-- Each key of a map in the tree meets a condition. -/
def allKeys (p : List UInt8 → Bool) : Node → Bool
  | .map entries => entriesAllKeys p entries
  | _ => true

def entriesAllKeys (p : List UInt8 → Bool) : List (List UInt8 × Node) → Bool
  | [] => true
  | (key, node) :: entries => p key && node.allKeys p && entriesAllKeys p entries

end

/-- A node that is no map has only its own path. -/
theorem paths_leaf {path : List (List UInt8)} {node : Node}
    (h : ∀ entries, node = .map entries → False) : node.paths path = [(path, node)] := by
  cases node with
  | map entries => exact (h entries rfl).elim
  | _ => rfl

end Node

end Lib.Yaml
