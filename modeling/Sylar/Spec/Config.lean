import Sylar.Lib.Text
import Sylar.Lib.Yaml

/-!
# `Sylar.Spec.Config`: loading a YAML tree into the configuration variables

`ListAllMember` flattens the tree into pairs of a dotted name and a node, and leaves out a node whose
name has a character that no variable may have, with all that is below it. `LoadFromYaml` then puts
each name in lower case, looks the variable up, and gives it the text of the node.

A variable is a value of any type `V`, with its `fromString`. What yaml-cpp prints for a node that
is not a scalar is the parameter `emit`.
-/

set_option autoImplicit false

namespace Sylar.Config

open Lib Lib.Yaml

abbrev Name := List UInt8

/-- The characters of `find_first_not_of` in `Lookup` and `ListAllMember`. There is no 9. -/
def isNameChar : UInt8 → Bool := oneOf "abcdefghijklmnopqrstuvwxyz._012345678"

def isName (name : Name) : Bool := name.all isNameChar

/-- `GetDatas()`: the variables by name. Their names are checked when they are made. -/
structure ConfigVarMap (V : Type) where
  find : Name → Option V
  valid : ∀ name, (find name).isSome = true → isName name = true

namespace ConfigVarMap

variable {V : Type}

def empty : ConfigVarMap V := ⟨fun _ => none, fun _ h => nomatch h⟩

/-- `GetDatas()[name] = v`. -/
def set (m : ConfigVarMap V) (name : Name) (v : V) (hname : isName name = true) :
    ConfigVarMap V where
  find := Function.update m.find name (some v)
  valid := by
    intro name' h
    by_cases heq : name' = name
    · rw [heq]
      exact hname
    · rw [Function.update_of_ne heq] at h
      exact m.valid name' h

/-- `Lookup(name, default_value)`: the variable of the name, which is made when there is none. `none`
is `std::invalid_argument`. -/
def lookup (m : ConfigVarMap V) (name : Name) (defaultValue : V) : Option (V × ConfigVarMap V) :=
  match m.find name with
  | some v => some (v, m)
  | none =>
    if h : isName name = true then some (defaultValue, m.set name defaultValue h) else none

/-- A variable that is there has a new state. -/
def modify (m : ConfigVarMap V) (name : Name) (f : V → V) : ConfigVarMap V where
  find := fun name' => if name' = name then (m.find name').map f else m.find name'
  valid := by
    intro name' h
    refine m.valid name' ?_
    split at h
    · rw [Option.isSome_map] at h
      exact h
    · exact h

theorem find_modify (m : ConfigVarMap V) (name name' : Name) (f : V → V) :
    (m.modify name f).find name' = if name' = name then (m.find name').map f else m.find name' :=
  rfl

end ConfigVarMap

mutual

/-- `ListAllMember(prefix, node, output)`: what it appends to `output`. -/
def listAllMember (path : Name) : Yaml.Node → List (Name × Yaml.Node)
  | .map entries =>
    if isName path then (path, .map entries) :: listEntries path entries else []
  | node => if isName path then [(path, node)] else []

/-- The loop over the entries of a map. -/
def listEntries (path : Name) : List (Name × Yaml.Node) → List (Name × Yaml.Node)
  | [] => []
  | (key, node) :: entries =>
    listAllMember (if path.isEmpty then key else path ++ text "." ++ key) node ++
      listEntries path entries

end

/-- What `LoadFromYaml` has done so far: the variables, and the calls of `fromString`. -/
structure Load (V : Type) where
  vars : ConfigVarMap V
  calls : List (Name × List UInt8)

section
variable {V : Type} (emit : Yaml.Node → List UInt8) (fromString : V → List UInt8 → V)

/-- The text that a node gives to `fromString`. -/
def nodeText : Yaml.Node → List UInt8
  | .scalar text => text
  | node => emit node

/-- One round of the loop of `LoadFromYaml`. -/
def loadOne (x : Load V) (i : Name × Yaml.Node) : Load V :=
  if i.1.isEmpty then x
  else
    let key := i.1.map toLower
    match x.vars.find key with
    | none => x
    | some _ =>
      { vars := x.vars.modify key fun v => fromString v (nodeText emit i.2)
        calls := x.calls ++ [(key, nodeText emit i.2)] }

/-- `LoadFromYaml(root)`. -/
def loadFromYaml (m : ConfigVarMap V) (root : Yaml.Node) : Load V :=
  (listAllMember [] root).foldl (loadOne emit fromString) ⟨m, []⟩

end

/-! ## What loading is for -/

/-- The name that a path of keys spells. -/
def dotted (path : List Name) : Name := List.intercalate (text ".") path

/-- The name of the variable that a node is for. -/
def variableName (path : List Name) : Name := (dotted path).map toLower

/-- A key of the trees: not empty, and of letters, digits, `_` and `.`. -/
def isKey (key : Name) : Bool :=
  !key.isEmpty && key.all fun c => isAlpha c || isDigit c || oneOf "_." c

/-- The call that a node asks for. The root has no key and is for no variable. -/
def expectedCall {V : Type} (emit : Yaml.Node → List UInt8) (m : ConfigVarMap V)
    (x : List Name × Yaml.Node) : Option (Name × List UInt8) :=
  if x.1.isEmpty || (m.find (variableName x.1)).isNone then none
  else some (variableName x.1, nodeText emit x.2)

/-- The calls that a tree asks for: one for each node below the root whose name is that of a variable,
a node before its children and siblings in the order of the document. -/
def expectedCalls {V : Type} (emit : Yaml.Node → List UInt8) (m : ConfigVarMap V)
    (root : Yaml.Node) : List (Name × List UInt8) :=
  (root.paths []).filterMap (expectedCall emit m)

end Sylar.Config
