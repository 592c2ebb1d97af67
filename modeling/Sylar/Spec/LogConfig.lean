import Sylar.Lib.EState
import Sylar.Lib.KeyedSet
import Sylar.Lib.Yaml
import Sylar.Spec.Log

/-!
# `Sylar.Spec.LogConfig`: logging configurations

A `LogDefine` says how a logger is to be set up, and a configuration is a `std::set` of them, ordered
by their names. The two specialisations of `LexicalCast` print a configuration as YAML and read one.
`onLoggerConfChanged` is the listener that `LogIniter` registers.

A null pointer that the listener dereferences is a `Fault`.
-/

set_option autoImplicit false

namespace Sylar.Log

open Lib Lib.Yaml

structure LogAppenderDefine where
  type : Int
  level : LogLevel
  formatter : Text
  file : Text
  deriving DecidableEq, Repr

structure LogDefine where
  name : Text
  level : LogLevel
  formatter : Text
  appenders : List LogAppenderDefine
  deriving DecidableEq, Repr

/-- What `std::string::operator<` compares. -/
def nameOrder (name : Text) : List Nat := name.map UInt8.toNat

/-- `std::set<LogDefine>`. -/
abbrev LogDefines := KeyedSet fun d : LogDefine => nameOrder d.name

/-! ## `LexicalCast` -/

section
variable (node : Yaml.Node)

/-- The text of an optional member, the empty text when it is not defined. -/
def optionalText (key : String) : Except Exception Text := do
  match ← node.get (text key) with
  | none => pure []
  | some n => n.asString

/-- One round of the loop over the appenders. `none` is a `continue`. -/
def decodeAppender : Except Exception (Option LogAppenderDefine) := do
  match ← node.get (text "type") with
  | none => pure none
  | some n =>
    let type ← n.asString
    if type = text "FileLogAppender" then
      match ← node.get (text "file") with
      | none => pure none
      | some f =>
        let file ← f.asString
        let formatter ← optionalText node "formatter"
        pure (some ⟨1, .unknow, formatter, file⟩)
    else if type = text "StdoutLogAppender" then pure (some ⟨2, .unknow, [], []⟩)
    else pure none

/-- The loop over the appenders. -/
def decodeAppenders : Except Exception (List LogAppenderDefine) := do
  match ← node.get (text "appenders") with
  | none => pure []
  | some n => pure (← n.elements.mapM decodeAppender).reduceOption

/-- One round of the loop over the definitions. -/
def decodeDefine : Except Exception (Option LogDefine) := do
  match ← node.get (text "name") with
  | none => pure none
  | some n =>
    let name ← n.asString
    let level ← optionalText node "level"
    let formatter ← optionalText node "formatter"
    pure (some ⟨name, .fromString level, formatter, ← decodeAppenders node⟩)

/-- `LexicalCast<std::string, std::set<LogDefine>>` on the tree of the text. -/
def decode : Except Exception LogDefines := do
  pure ((← node.elements.mapM decodeDefine).reduceOption.foldl KeyedSet.insert .empty)

end

/-- A member that is written when a condition holds. -/
def field (key : String) (cond : Bool) (val : Text) : List (Text × Yaml.Node) :=
  if cond then [(text key, .scalar val)] else []

def encodeAppender (a : LogAppenderDefine) : Yaml.Node :=
  .ofFields <|
    (if a.type = 1 then
      [(text "type", .scalar (text "FileLogAppender")), (text "file", .scalar a.file)]
    else if a.type = 2 then [(text "type", .scalar (text "StdoutLogAppender"))]
    else []) ++
    field "level" (a.level ≠ .unknow) a.level.toString ++
    field "formatter" (!a.formatter.isEmpty) a.formatter

/-- The formatter of a logger is written when it is empty. -/
def encodeDefine (i : LogDefine) : Yaml.Node :=
  .ofFields <|
    [(text "name", .scalar i.name)] ++
    field "level" (i.level ≠ .unknow) i.level.toString ++
    field "formatter" i.formatter.isEmpty i.formatter ++
    (if i.appenders.isEmpty then []
    else [(text "appenders", .ofItems (i.appenders.map encodeAppender))])

/-- The tree that `LexicalCast<std::set<LogDefine>, std::string>` prints. -/
def encode (v : LogDefines) : Yaml.Node := .ofItems (v.elems.map encodeDefine)

section
variable {Doc : Type} (load : Doc → Yaml.Node) (emit : Yaml.Node → Doc)

/-- `LexicalCast<std::string, std::set<LogDefine>>`, where `load` is `YAML::Load`. -/
def fromText (doc : Doc) : Except Exception LogDefines := decode (load doc)

/-- `LexicalCast<std::set<LogDefine>, std::string>`, where `emit` prints a tree. -/
def toText (v : LogDefines) : Doc := emit (encode v)

end

/-! ## The listener -/

inductive Fault where
  | nullLogger
  | nullAppender
  deriving DecidableEq, Repr

/-- The object that a definition makes. The pointer stays null for an unknown type. -/
def newAppender (a : LogAppenderDefine) : Except Fault LogAppender :=
  if a.type = 1 then .ok (.new (.file a.file))
  else if a.type = 2 then .ok (.new .stdout)
  else .error .nullAppender

/-- Its level and its formatter. A pattern in error is not taken. -/
def setUpAppender (a : LogAppenderDefine) (ap : LogAppender) : LogAppender :=
  let ap := ap.setLevel a.level
  if a.formatter.isEmpty || LogFormatter.isError ⟨a.formatter⟩ then ap
  else ap.setFormatter (some ⟨a.formatter⟩)

/-- The part of the loop over `new_value` that changes a logger. -/
def configure (i : LogDefine) (logger : Logger) : Except Fault Logger := do
  let logger := logger.setLevel i.level
  let logger := if i.formatter.isEmpty then logger else logger.setFormatter i.formatter
  i.appenders.foldlM (fun l a => do pure (l.addAppender (setUpAppender a (← newAppender a))))
    logger.clearAppenders

/-- One round of the loop over `new_value`. The pointer to the logger stays null when the definition
has not changed. -/
def applyNew (old : LogDefines) (m : LoggerManager) (i : LogDefine) :
    Except Fault LoggerManager := do
  match old.find (nameOrder i.name) with
  | some d =>
    if i = d then .error .nullLogger
    else pure (m.store i.name (← configure i (m.getLogger i.name)))
  | none => pure (m.store i.name (← configure i (m.getLogger i.name)))

/-- A logger whose definition is gone. -/
def retire (logger : Logger) : Logger := (logger.setLevel .hundred).clearAppenders

/-- One round of the loop over `old_value`. -/
def applyOld (new : LogDefines) (m : LoggerManager) (i : LogDefine) : LoggerManager :=
  match new.find (nameOrder i.name) with
  | none => m.store i.name (retire (m.getLogger i.name))
  | some _ => m

/-- The listener. -/
def onLoggerConfChanged (old new : LogDefines) (m : LoggerManager) :
    Except Fault LoggerManager := do
  let m ← new.elems.foldlM (applyNew old) m
  pure (old.elems.foldl (applyOld new) m)

end Sylar.Log
