import Sylar.Spec.Log

/-!
# `Sylar.Spec.LogAppenders`: a logger and the appenders it shares

In `Log` a logger has its appenders as values. Here an appender is an object with an index. The
logger has the indices in its vector, so an appender can be changed while it is attached, attached
twice, or taken out and attached again. A `LogFormatter::ptr` is the address and the formatter that
is there.

`Usable` is what `log` relies on: an attached appender has a formatter, and one without a formatter
of its own has that of the logger.
-/

set_option autoImplicit false

namespace Sylar.Log

open Lib

/-- A `LogFormatter::ptr` that is not null. -/
structure FormatterPtr where
  addr : Nat
  formatter : LogFormatter
  deriving DecidableEq, Repr

/-- A `LogAppender` on the heap. -/
structure AppenderObject where
  kind : AppenderKind
  level : LogLevel
  hasFormatter : Bool
  formatter : Option FormatterPtr
  deriving DecidableEq, Repr

namespace AppenderObject

def new (kind : AppenderKind) (level : LogLevel) : AppenderObject := ⟨kind, level, false, none⟩

/-- `LogAppender::setFormatter(val)`. -/
def setFormatter (val : Option FormatterPtr) (a : AppenderObject) : AppenderObject :=
  { a with formatter := val, hasFormatter := val.isSome }

/-- `log(logger, level, event)`: the formatter that formats the event, if the level is high enough.
It is an error to follow a null pointer. -/
def log (level : LogLevel) (a : AppenderObject) : Except Unit (Option FormatterPtr) :=
  if a.level.toNat ≤ level.toNat then
    match a.formatter with
    | none => .error ()
    | some formatter => .ok (some formatter)
  else .ok none

/-- The appender as a value. -/
def view (a : AppenderObject) : LogAppender :=
  ⟨a.kind, a.level, a.hasFormatter, a.formatter.map FormatterPtr.formatter⟩

end AppenderObject

/-- A logger, and the appenders that there are. -/
structure LoggerObject where
  name : Text
  level : LogLevel
  formatter : FormatterPtr
  appenders : List Nat
  heap : Nat → AppenderObject

namespace LoggerObject

/-- A new logger, with the formatter at `addr`, and appenders that are all new. -/
def new (name : Text) (addr : Nat) (appenders : Nat → AppenderKind × LogLevel) : LoggerObject :=
  ⟨name, .debug, ⟨addr, ⟨defaultPattern⟩⟩, [],
    fun i => AppenderObject.new (appenders i).1 (appenders i).2⟩

/-- The loop of `setFormatter`. -/
def setFormatterLoop (val : FormatterPtr) (heap : Nat → AppenderObject) :
    List Nat → (Nat → AppenderObject)
  | [] => heap
  | i :: rest =>
    setFormatterLoop val
      (if (heap i).hasFormatter then heap
        else Function.update heap i { heap i with formatter := some val }) rest

/-- `setFormatter(LogFormatter::ptr)`. -/
def setFormatterPtr (val : FormatterPtr) (l : LoggerObject) : LoggerObject :=
  { l with formatter := val, heap := setFormatterLoop val l.heap l.appenders }

/-- `setFormatter(const std::string&)`. The new formatter is at `addr`. -/
def setFormatter (addr : Nat) (val : Text) (l : LoggerObject) : LoggerObject :=
  if LogFormatter.isError ⟨val⟩ then l else l.setFormatterPtr ⟨addr, ⟨val⟩⟩

def addAppender (appender : Nat) (l : LoggerObject) : LoggerObject :=
  { l with
    heap :=
      if (l.heap appender).formatter.isNone then
        Function.update l.heap appender { l.heap appender with formatter := some l.formatter }
      else l.heap
    appenders := l.appenders ++ [appender] }

/-- `delAppender(appender)`: the first entry that is equal is erased. -/
def delAppender (appender : Nat) (l : LoggerObject) : LoggerObject :=
  { l with appenders := l.appenders.erase appender }

def clearAppenders (l : LoggerObject) : LoggerObject := { l with appenders := [] }

/-- `LogAppender::setFormatter(val)` of one appender. -/
def setAppenderFormatter (appender : Nat) (val : Option FormatterPtr) (l : LoggerObject) :
    LoggerObject :=
  { l with heap := Function.update l.heap appender ((l.heap appender).setFormatter val) }

/-- The loop of `log`: the formatters that format the event. -/
def logLoop (level : LogLevel) (heap : Nat → AppenderObject) :
    List Nat → Except Unit (List FormatterPtr)
  | [] => .ok []
  | i :: rest => do
    let formatter ← (heap i).log level
    let formatters ← logLoop level heap rest
    return formatter.toList ++ formatters

/-- `log(level, event)`. A logger without appenders hands the event to the root logger, which is
left out. -/
def log (level : LogLevel) (l : LoggerObject) : Except Unit (List FormatterPtr) :=
  if l.level.toNat ≤ level.toNat then logLoop level l.heap l.appenders else .ok []

/-- The logger with its appenders as values. -/
def view (l : LoggerObject) : Logger :=
  ⟨l.name, l.level, l.formatter.formatter, l.appenders.map fun i => (l.heap i).view⟩

/-! ### Runs -/

/-- The calls on a logger and on its appenders. -/
inductive Call where
  | addAppender (appender : Nat)
  | delAppender (appender : Nat)
  | clearAppenders
  | setFormatterPtr (val : FormatterPtr)
  | setFormatter (addr : Nat) (val : Text)
  | setAppenderFormatter (appender : Nat) (val : Option FormatterPtr)
  deriving DecidableEq, Repr

def call (l : LoggerObject) : Call → LoggerObject
  | .addAppender appender => l.addAppender appender
  | .delAppender appender => l.delAppender appender
  | .clearAppenders => l.clearAppenders
  | .setFormatterPtr val => l.setFormatterPtr val
  | .setFormatter addr val => l.setFormatter addr val
  | .setAppenderFormatter appender val => l.setAppenderFormatter appender val

/-- A call as a step of a run. Every call is enabled. -/
def step (l : LoggerObject) (c : Call) : Option LoggerObject := some (l.call c)

/-- An attached appender has a formatter. Without one of its own it has that of the logger. -/
structure Usable (l : LoggerObject) : Prop where
  nonnull : ∀ i ∈ l.appenders, (l.heap i).formatter.isSome
  current : ∀ i ∈ l.appenders, (l.heap i).hasFormatter = false →
    (l.heap i).formatter = some l.formatter

/-- The call neither resets the formatter of an attached appender to null, nor attaches an appender
that still has an earlier formatter of the logger. -/
def Safe (l : LoggerObject) : Call → Prop
  | .setAppenderFormatter appender none => appender ∉ l.appenders
  | .addAppender appender => (l.heap appender).hasFormatter = false →
      (l.heap appender).formatter = none ∨ (l.heap appender).formatter = some l.formatter
  | _ => True

end LoggerObject

end Sylar.Log
