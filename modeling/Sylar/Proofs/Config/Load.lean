import Sylar.Spec.Config

/-!
# `Sylar.Proofs.Config.Load`: when loading sets the variables that the tree names

`LoadFromYaml` puts the names in lower case, but `ListAllMember` has left out before that each node
whose name has an upper-case letter. `listAllMember_dotted` says that the flattened list is that of
all paths without the names that are not valid. Since the name of a variable is valid, a node is lost
for its variable exactly when its path has an upper-case letter.
-/

set_option autoImplicit false

namespace Sylar.Config

open Lib Lib.Yaml

/-! ## Names -/

theorem isName_append (a b : Name) : isName (a ++ b) = (isName a && isName b) := List.all_append

theorem dotted_concat (path : List Name) (key : Name) :
    dotted (path ++ [key]) = if path.isEmpty then key else dotted path ++ text "." ++ key := by
  induction path with
  | nil => simp [dotted]
  | cons k path ih =>
      cases path with
      | nil => simp [dotted]
      | cons k' path =>
          simp only [dotted, List.cons_append, List.intercalate_cons_cons, List.isEmpty_cons] at ih ⊢
          simp only [Bool.false_eq_true, if_false] at ih ⊢
          rw [ih]
          simp only [List.append_assoc]

theorem dotted_isEmpty {path : List Name} (h : ∀ key ∈ path, isKey key = true) :
    (dotted path).isEmpty = path.isEmpty := by
  cases path with
  | nil => rfl
  | cons key path =>
      have hkey : key ≠ [] := by
        rintro rfl
        cases h [] List.mem_cons_self
      cases path with
      | nil => simpa [dotted] using hkey
      | cons k path => simp [dotted, List.intercalate_cons_cons, hkey]

theorem isName_dotted_of_concat {path : List Name} {key : Name}
    (h : isName (dotted (path ++ [key])) = true) : isName (dotted path) = true := by
  rw [dotted_concat] at h
  split at h
  next hempty =>
    rw [List.isEmpty_iff.mp hempty]
    rfl
  next =>
    rw [isName_append, isName_append, Bool.and_eq_true, Bool.and_eq_true] at h
    exact h.1.1

/-- The name of a node begins with that of the node above. -/
theorem isName_of_mem_paths {path : List Name} {node : Yaml.Node} :
    ∀ x ∈ node.paths path, isName (dotted x.1) = true → isName (dotted path) = true := by
  refine Yaml.Node.paths.induct
    (fun path node => ∀ x ∈ node.paths path, isName (dotted x.1) = true →
      isName (dotted path) = true)
    (fun path entries => ∀ x ∈ Yaml.Node.entriesPaths path entries, isName (dotted x.1) = true →
      isName (dotted path) = true) ?_ ?_ ?_ ?_ path node
  · intro path entries ih x hx
    rw [Yaml.Node.paths] at hx
    rcases List.mem_cons.mp hx with rfl | hx
    · exact id
    · exact ih x hx
  · intro path node hleaf x hx
    rw [Yaml.Node.paths_leaf hleaf] at hx
    rw [List.mem_singleton.mp hx]
    exact id
  · intro path x hx
    rw [Yaml.Node.entriesPaths] at hx
    cases hx
  · intro path key node entries hnode hentries x hx hname
    rw [Yaml.Node.entriesPaths] at hx
    rcases List.mem_append.mp hx with hx | hx
    · exact isName_dotted_of_concat (hnode x hx hname)
    · exact hentries x hx hname

/-! ## The flattened list -/

/-- All paths with their names, without those whose name is not valid. -/
def validNames (xs : List (List Name × Yaml.Node)) : List (Name × Yaml.Node) :=
  (xs.filter fun x => isName (dotted x.1)).map fun x => (dotted x.1, x.2)

theorem validNames_append (xs ys : List (List Name × Yaml.Node)) :
    validNames (xs ++ ys) = validNames xs ++ validNames ys := by
  simp [validNames]

theorem validNames_of_not_isName {path : List Name} {node : Yaml.Node}
    (h : ¬ isName (dotted path) = true) : validNames (node.paths path) = [] := by
  unfold validNames
  rw [List.map_eq_nil_iff, List.filter_eq_nil_iff]
  intro x hx hname
  exact h (isName_of_mem_paths x hx hname)

theorem isKey_of_mem_concat {path : List Name} {key : Name} (h : ∀ k ∈ path, isKey k = true)
    (hkey : isKey key = true) : ∀ k ∈ path ++ [key], isKey k = true := by
  intro k hk
  rcases List.mem_append.mp hk with hk | hk
  · exact h k hk
  · rw [List.mem_singleton.mp hk]
    exact hkey

theorem isKey_of_mem_paths {path : List Name} {node : Yaml.Node}
    (hpath : ∀ k ∈ path, isKey k = true) (hkeys : node.allKeys isKey = true) :
    ∀ x ∈ node.paths path, ∀ k ∈ x.1, isKey k = true := by
  revert hpath hkeys
  refine Yaml.Node.paths.induct
    (fun path node => (∀ k ∈ path, isKey k = true) → node.allKeys isKey = true →
      ∀ x ∈ node.paths path, ∀ k ∈ x.1, isKey k = true)
    (fun path entries => (∀ k ∈ path, isKey k = true) →
      Yaml.Node.entriesAllKeys isKey entries = true →
      ∀ x ∈ Yaml.Node.entriesPaths path entries, ∀ k ∈ x.1, isKey k = true) ?_ ?_ ?_ ?_ path node
  · intro path entries ih hpath hkeys x hx
    rw [Yaml.Node.paths] at hx
    rw [Yaml.Node.allKeys] at hkeys
    rcases List.mem_cons.mp hx with rfl | hx
    · exact hpath
    · exact ih hpath hkeys x hx
  · intro path node hleaf hpath _ x hx
    rw [Yaml.Node.paths_leaf hleaf] at hx
    rw [List.mem_singleton.mp hx]
    exact hpath
  · intro path _ _ x hx
    rw [Yaml.Node.entriesPaths] at hx
    cases hx
  · intro path key node entries hnode hentries hpath hkeys x hx
    rw [Yaml.Node.entriesAllKeys, Bool.and_eq_true, Bool.and_eq_true] at hkeys
    obtain ⟨⟨hkey, hbelow⟩, hrest⟩ := hkeys
    rw [Yaml.Node.entriesPaths] at hx
    rcases List.mem_append.mp hx with hx | hx
    · exact hnode (isKey_of_mem_concat hpath hkey) hbelow x hx
    · exact hentries hpath hrest x hx

/-- `ListAllMember` gives the paths whose names are valid. -/
theorem listAllMember_dotted {path : List Name} {node : Yaml.Node}
    (hpath : ∀ k ∈ path, isKey k = true) (hkeys : node.allKeys isKey = true) :
    listAllMember (dotted path) node = validNames (node.paths path) := by
  revert hpath hkeys
  refine Yaml.Node.paths.induct
    (fun path node => (∀ k ∈ path, isKey k = true) → node.allKeys isKey = true →
      listAllMember (dotted path) node = validNames (node.paths path))
    (fun path entries => (∀ k ∈ path, isKey k = true) →
      Yaml.Node.entriesAllKeys isKey entries = true →
      listEntries (dotted path) entries = validNames (Yaml.Node.entriesPaths path entries))
    ?_ ?_ ?_ ?_ path node
  · intro path entries ih hpath hkeys
    rw [Yaml.Node.allKeys] at hkeys
    rw [listAllMember]
    split
    next hname =>
      rw [Yaml.Node.paths, ih hpath hkeys]
      simp [validNames, hname]
    next hname => exact (validNames_of_not_isName hname).symm
  · intro path node hleaf hpath hkeys
    rw [Yaml.Node.paths_leaf hleaf, listAllMember]
    · by_cases hname : isName (dotted path) = true <;> simp [validNames, hname]
    · exact hleaf
  · intro path _ _
    rw [listEntries, Yaml.Node.entriesPaths]
    rfl
  · intro path key node entries hnode hentries hpath hkeys
    rw [Yaml.Node.entriesAllKeys, Bool.and_eq_true, Bool.and_eq_true] at hkeys
    obtain ⟨⟨hkey, hbelow⟩, hrest⟩ := hkeys
    rw [listEntries, Yaml.Node.entriesPaths, validNames_append, hentries hpath hrest,
      dotted_isEmpty hpath, ← dotted_concat, hnode (isKey_of_mem_concat hpath hkey) hbelow]

/-! ## Lower case -/

theorem not_isUpper_of_isNameChar {c : UInt8} (h : isNameChar c = true) : isUpper c = false := by
  have hall : ∀ d ∈ text "abcdefghijklmnopqrstuvwxyz._012345678", isUpper d = false := by
    decide +kernel
  exact hall c (List.contains_iff_mem.mp h)

/-- A name that is valid in lower case is valid if and only if it has no upper-case letter. -/
theorem isName_iff_of_lower {name : Name} (h : isName (name.map toLower) = true) :
    isName name = true ↔ name.any isUpper = false := by
  rw [isName, List.all_eq_true, List.any_eq_false]
  constructor
  · intro hname c hc
    simp [not_isUpper_of_isNameChar (hname c hc)]
  · intro hupper c hc
    have hlower : isNameChar (toLower c) = true :=
      List.all_eq_true.mp h _ (List.mem_map_of_mem hc)
    have hself : toLower c = c := by simp [toLower, hupper c hc]
    rw [hself] at hlower
    exact hlower

/-! ## Loading -/

section
variable {V : Type} {emit : Yaml.Node → List UInt8} {fromString : V → List UInt8 → V}

/-- The call that the loop makes for an entry of the flattened list. -/
def callOf (emit : Yaml.Node → List UInt8) (m : ConfigVarMap V) (i : Name × Yaml.Node) :
    Option (Name × List UInt8) :=
  if i.1.isEmpty || (m.find (i.1.map toLower)).isNone then none
  else some (i.1.map toLower, nodeText emit i.2)

/-- The state of a variable after the texts of its calls. -/
def afterCalls (fromString : V → List UInt8 → V) (calls : List (Name × List UInt8)) (name : Name)
    (v : V) : V :=
  ((calls.filter fun c => c.1 == name).map Prod.snd).foldl fromString v

/-- The calls are those that the tree asks for, and the state of each variable comes from its own
calls. -/
structure LoadsExactly (emit : Yaml.Node → List UInt8) (fromString : V → List UInt8 → V)
    (m : ConfigVarMap V) (root : Yaml.Node) : Prop where
  calls : (loadFromYaml emit fromString m root).calls = expectedCalls emit m root
  vars : ∀ name, (loadFromYaml emit fromString m root).vars.find name =
    (m.find name).map (afterCalls fromString (expectedCalls emit m root) name)

theorem isNone_modify (m : ConfigVarMap V) (name name' : Name) (f : V → V) :
    ((m.modify name f).find name').isNone = (m.find name').isNone := by
  rw [ConfigVarMap.find_modify]
  split
  · rw [Option.isNone_map]
  · rfl

/-- One round makes the call of its entry, if there is one. -/
theorem loadOne_eq (x : Load V) (i : Name × Yaml.Node) :
    loadOne emit fromString x i =
      match callOf emit x.vars i with
      | none => x
      | some c => ⟨x.vars.modify c.1 fun v => fromString v c.2, x.calls ++ [c]⟩ := by
  unfold loadOne callOf
  cases hempty : i.1.isEmpty with
  | true => rfl
  | false =>
      cases hfind : x.vars.find (i.1.map toLower) with
      | none => simp [hfind]
      | some v => simp [hfind]

theorem callOf_modify (m : ConfigVarMap V) (name : Name) (f : V → V) :
    callOf emit (m.modify name f) = callOf emit m := by
  funext i
  simp only [callOf, isNone_modify]

theorem calls_foldl (is : List (Name × Yaml.Node)) (x : Load V) :
    (is.foldl (loadOne emit fromString) x).calls =
      x.calls ++ is.filterMap (callOf emit x.vars) := by
  induction is generalizing x with
  | nil => simp
  | cons i is ih =>
      rw [List.foldl_cons, ih, loadOne_eq]
      cases hcall : callOf emit x.vars i with
      | none => simp [hcall]
      | some c => simp [hcall, callOf_modify]

theorem find_foldl (is : List (Name × Yaml.Node)) (x : Load V) (name : Name) :
    (is.foldl (loadOne emit fromString) x).vars.find name =
      (x.vars.find name).map
        (afterCalls fromString (is.filterMap (callOf emit x.vars)) name) := by
  induction is generalizing x with
  | nil =>
      cases h : x.vars.find name with
      | none => simp [h]
      | some v => simp [h, afterCalls]
  | cons i is ih =>
      rw [List.foldl_cons, ih, loadOne_eq]
      cases hcall : callOf emit x.vars i with
      | none => simp [hcall]
      | some c =>
          simp only [callOf_modify, List.filterMap_cons, hcall, ConfigVarMap.find_modify]
          by_cases hname : name = c.1
          · subst hname
            cases x.vars.find c.1 <;> simp [afterCalls]
          · cases x.vars.find name <;> simp [afterCalls, hname, Ne.symm hname]

/-- What a filter takes away is missed if and only if it would have counted. -/
theorem filterMap_filter_eq_iff {α β : Type} (f : α → Option β) (p : α → Bool) (xs : List α) :
    (xs.filter p).filterMap f = xs.filterMap f ↔ ∀ x ∈ xs, (f x).isSome = true → p x = true := by
  constructor
  · intro heq x hx hsome
    by_contra hp
    -- The sublist lacks `x`, so the two lists differ in length.
    have hsub : ((xs.filter p).filterMap f).length < (xs.filterMap f).length := by
      clear heq
      induction xs with
      | nil => cases hx
      | cons y xs ih =>
          have hle : ((xs.filter p).filterMap f).length ≤ (xs.filterMap f).length :=
            (List.filter_sublist.filterMap f).length_le
          rcases List.mem_cons.mp hx with rfl | hx
          · obtain ⟨b, hb⟩ := Option.isSome_iff_exists.mp hsome
            simp only [List.filter_cons, hp, if_false, List.filterMap_cons, hb, List.length_cons]
            omega
          · have hlt := ih hx
            by_cases hy : p y = true
            · cases hfy : f y <;> simp [hy, hfy, hlt]
            · cases hfy : f y <;> simp [hy, hfy] <;> omega
    rw [heq] at hsub
    exact lt_irrefl _ hsub
  · intro h
    rw [List.filterMap_filter]
    refine List.filterMap_congr ?_
    intro x hx
    cases hfx : f x with
    | none => simp
    | some b => simp [h x hx (by simp [hfx])]

theorem isSome_expectedCall {m : ConfigVarMap V} {x : List Name × Yaml.Node} :
    (expectedCall emit m x).isSome = true ↔
      x.1 ≠ [] ∧ (m.find (variableName x.1)).isSome = true := by
  unfold expectedCall
  cases hpath : x.1 with
  | nil => simp
  | cons key path => cases m.find (variableName (key :: path)) <;> simp

/-- The calls of the loop are those that the tree asks for, without the names that are not valid. -/
theorem filterMap_listAllMember (m : ConfigVarMap V) {root : Yaml.Node}
    (hkeys : root.allKeys isKey = true) :
    (listAllMember [] root).filterMap (callOf emit m) =
      ((root.paths []).filter fun x => isName (dotted x.1)).filterMap (expectedCall emit m) := by
  have hnone : ∀ k ∈ ([] : List Name), isKey k = true := fun _ hk => nomatch hk
  have hlist : listAllMember [] root = validNames (root.paths []) :=
    listAllMember_dotted hnone hkeys
  rw [hlist, validNames, List.filterMap_map]
  refine List.filterMap_congr ?_
  intro x hx
  have hempty : (dotted x.1).isEmpty = x.1.isEmpty :=
    dotted_isEmpty (isKey_of_mem_paths hnone hkeys x (List.mem_of_mem_filter hx))
  simp only [Function.comp_apply, callOf, expectedCall, hempty]
  rfl

/-- Loading sets exactly the variables that the tree names if and only if no node that is for a
variable has an upper-case letter in its path. -/
theorem loadsExactly_iff (emit : Yaml.Node → List UInt8) (fromString : V → List UInt8 → V)
    (m : ConfigVarMap V) (root : Yaml.Node) (hkeys : root.allKeys isKey = true) :
    LoadsExactly emit fromString m root ↔
      ∀ path node, (path, node) ∈ root.paths [] → (m.find (variableName path)).isSome = true →
        (dotted path).any isUpper = false := by
  -- Both sides say that the filter on valid names takes no call away.
  have hcalls : (loadFromYaml emit fromString m root).calls =
      ((root.paths []).filter fun x => isName (dotted x.1)).filterMap (expectedCall emit m) := by
    rw [loadFromYaml, calls_foldl, List.nil_append, filterMap_listAllMember m hkeys]
  have hiff : (loadFromYaml emit fromString m root).calls = expectedCalls emit m root ↔
      ∀ path node, (path, node) ∈ root.paths [] → (m.find (variableName path)).isSome = true →
        (dotted path).any isUpper = false := by
    rw [hcalls, expectedCalls, filterMap_filter_eq_iff]
    constructor
    · intro h path node hx hsome
      cases path with
      | nil => rfl
      | cons key path =>
          have hname := h _ hx (isSome_expectedCall.mpr ⟨List.cons_ne_nil _ _, hsome⟩)
          exact (isName_iff_of_lower (m.valid _ hsome)).mp hname
    · intro h x hx hcall
      obtain ⟨-, hsome⟩ := isSome_expectedCall.mp hcall
      exact (isName_iff_of_lower (m.valid _ hsome)).mpr (h x.1 x.2 hx hsome)
  constructor
  · intro h
    exact hiff.mp h.calls
  · intro h
    refine ⟨hiff.mpr h, ?_⟩
    intro name
    have hmade := hiff.mpr h
    rw [hcalls, ← filterMap_listAllMember m hkeys] at hmade
    rw [loadFromYaml, find_foldl, hmade]

end

/-- One variable, with the name `system.port`. -/
def onePort : ConfigVarMap (List (List UInt8)) :=
  ConfigVarMap.empty.set (text "system.port") [] (by decide)

/-- A tree with one key inside another. -/
def portTree (outer : String) : Yaml.Node :=
  .map [(text outer, .map [(text "port", .scalar (text "80"))])]

theorem loadsExactly_port :
    LoadsExactly (fun _ => []) (fun v s => v ++ [s]) onePort (portTree "system") := by
  refine (loadsExactly_iff _ _ onePort (portTree "system") (by decide)).mpr ?_
  intro path node hx _
  have hall : ∀ x ∈ ((portTree "system").paths []).map Prod.fst,
      (dotted x).any isUpper = false := by decide
  exact hall path (List.mem_map_of_mem hx)

/-- The key `System` is for the variable `system.port`, and the variable is not set. -/
theorem not_loadsExactly_upper :
    (portTree "System").allKeys isKey = true ∧
      ¬ LoadsExactly (fun _ => []) (fun v s => v ++ [s]) onePort (portTree "System") := by
  refine ⟨by decide, ?_⟩
  intro h
  have hcalls := h.calls
  revert hcalls
  decide

end Sylar.Config
