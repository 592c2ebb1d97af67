import Sylar.Lib.Run
import Sylar.Lib.Text

/-!
# `Sylar.Spec.Log`: levels, formatters, appenders and loggers

A `LogFormatter` is its pattern. `LogFormatter.init` reads the pattern into items, and says whether it
is in error. A `Logger` has a formatter and a vector of appenders, and hands its formatter to the
appenders that have none of their own. `LoggerManager` has the loggers by name.

`FileLogAppender` is the appender with its file: the time of the last reopening, and what the file
has. `std::ofstream::open(name)` truncates the file. A file that cannot be opened is not modelled.
-/

set_option autoImplicit false

namespace Sylar.Log

open Lib

abbrev Text := List UInt8

/-! ## Levels -/

/-- `LogLevel::Level`. `hundred` is the value `(LogLevel::Level)100`. -/
inductive LogLevel where
  | unknow
  | debug
  | info
  | warn
  | error
  | fatal
  | hundred
  deriving DecidableEq, Repr

namespace LogLevel

def toNat : LogLevel → Nat
  | unknow => 0
  | debug => 1
  | info => 2
  | warn => 3
  | error => 4
  | fatal => 5
  | hundred => 100

/-- `LogLevel::ToString`. -/
def toString : LogLevel → Text
  | debug => text "DEBUG"
  | info => text "INFO"
  | warn => text "WARN"
  | error => text "ERROR"
  | fatal => text "FATAL"
  | _ => text "UNKNOW"

/-- `LogLevel::FromString`. -/
def fromString (str : Text) : LogLevel :=
  if str = text "debug" then debug
  else if str = text "info" then info
  else if str = text "warn" then warn
  else if str = text "error" then error
  else if str = text "fatal" then fatal
  else if str = text "DEBUG" then debug
  else if str = text "INFO" then info
  else if str = text "WARN" then warn
  else if str = text "ERROR" then error
  else if str = text "FATAL" then fatal
  else unknow

/-- A level of the enumeration is read back from its text. -/
theorem fromString_toString {level : LogLevel} (h : level ≠ hundred) :
    fromString level.toString = level := by
  cases level with
  | hundred => exact absurd rfl h
  | _ => decide

end LogLevel

/-! ## Formatters -/

/-- The classes of items in `s_format_items`. -/
inductive ItemKind where
  | message
  | level
  | elapse
  | name
  | threadId
  | newLine
  | dateTime
  | filename
  | line
  | tab
  | fiberId
  | threadName
  deriving DecidableEq, Repr

/-- `s_format_items.find(str)`. -/
def ItemKind.find (str : Text) : Option ItemKind :=
  if str = text "m" then some message
  else if str = text "p" then some level
  else if str = text "r" then some elapse
  else if str = text "c" then some name
  else if str = text "t" then some threadId
  else if str = text "n" then some newLine
  else if str = text "d" then some dateTime
  else if str = text "f" then some filename
  else if str = text "l" then some line
  else if str = text "T" then some tab
  else if str = text "F" then some fiberId
  else if str = text "N" then some threadName
  else none

/-- An item: a `StringFormatItem`, or an item of a class with its format. -/
inductive FormatItem where
  | string (str : Text)
  | item (kind : ItemKind) (fmt : Text)
  deriving DecidableEq, Repr

/-- An entry of the local `vec` of `init`: plain text, or the name and the format of a directive. -/
inductive Part where
  | plain (str : Text)
  | directive (str fmt : Text)
  deriving DecidableEq, Repr

/-- What the inner loop of `init` leaves: `str`, `fmt`, whether `fmt_status` is back at 0, and by how
much `n` has advanced from `i + 1`. -/
structure Directive where
  str : Text
  fmt : Text
  closed : Bool
  length : Nat
  deriving DecidableEq, Repr

structure LogFormatter where
  pattern : Text
  deriving DecidableEq, Repr

namespace LogFormatter

/-- The inner loop of `init`. `seen` is the pattern from `i + 1` to `n`, and `inFmt` what follows
the opening brace. `fmtStatus` is `fmt_status == 1`. -/
def scan (str : Text) (fmtStatus : Bool) (seen inFmt : Text) : Text → Directive
  | [] => ⟨str, [], !fmtStatus, seen.length⟩
  | c :: rest =>
    if !fmtStatus && !isAlpha c && c != 123 && c != 125 then ⟨seen, [], true, seen.length⟩
    else if !fmtStatus && c == 123 then scan seen true (seen ++ [c]) [] rest
    else if fmtStatus && c == 125 then ⟨str, inFmt, true, seen.length + 1⟩
    else
      -- `++n` has reached the end of the pattern and `str` is still empty
      let str := if rest.isEmpty && str.isEmpty then seen ++ [c] else str
      scan str fmtStatus (seen ++ [c]) (inFmt ++ [c]) rest

/-- The pending plain text `nstr`, if there is any. -/
def flush (nstr : Text) : List Part := if nstr.isEmpty then [] else [.plain nstr]

/-- The outer loop of `init`, which ends with `vec` and `m_error`. `skip` is the part of the pattern
that `i = n - 1` jumps over. A directive whose brace is not closed is replaced by a text, and the
loop goes on behind its percent sign. -/
def loop : (skip : Nat) → (nstr : Text) → (vec : List Part) → (error : Bool) → Text →
    List Part × Bool
  | _, nstr, vec, error, [] => (vec ++ flush nstr, error)
  | skip + 1, nstr, vec, error, _ :: rest => loop skip nstr vec error rest
  | 0, nstr, vec, error, c :: rest =>
    if c != 37 then loop 0 (nstr ++ [c]) vec error rest
    else if rest.head? == some 37 then loop 0 (nstr ++ [37]) vec error rest
    else
      let d := scan [] false [] [] rest
      if d.closed then loop d.length [] (vec ++ flush nstr ++ [.directive d.str d.fmt]) error rest
      else loop 0 nstr (vec ++ [.plain (text "<<pattern_error>>")]) true rest

/-- The item of an entry, and whether it is in error. -/
def toItem : Part → FormatItem × Bool
  | .plain str => (.string str, false)
  | .directive str fmt =>
    match ItemKind.find str with
    | some kind => (.item kind fmt, false)
    | none => (.string (text "<<error_format %" ++ str ++ text ">>"), true)

/-- `init()`: `m_items` and `m_error`. -/
def init (pattern : Text) : List FormatItem × Bool :=
  let (vec, error) := loop 0 [] [] false pattern
  let items := vec.map toItem
  (items.map Prod.fst, error || items.any Prod.snd)

def items (f : LogFormatter) : List FormatItem := (init f.pattern).1

def isError (f : LogFormatter) : Bool := (init f.pattern).2

end LogFormatter

/-- The pattern of a new logger. -/
def defaultPattern : Text :=
  text "%d\x7b%Y-%m-%d %H:%M:%S\x7d%T%t%T%N%T%F%T[%p]%T[%c]%T%f:%l%T%m%n"

/-! ## Appenders and loggers -/

/-- The class of an appender. -/
inductive AppenderKind where
  | file (filename : Text)
  | stdout
  deriving DecidableEq, Repr

structure LogAppender where
  kind : AppenderKind
  level : LogLevel
  hasFormatter : Bool
  formatter : Option LogFormatter
  deriving DecidableEq, Repr

namespace LogAppender

def new (kind : AppenderKind) : LogAppender := ⟨kind, .debug, false, none⟩

def setLevel (val : LogLevel) (a : LogAppender) : LogAppender := { a with level := val }

def setFormatter (val : Option LogFormatter) (a : LogAppender) : LogAppender :=
  { a with formatter := val, hasFormatter := val.isSome }

end LogAppender

structure Logger where
  name : Text
  level : LogLevel
  formatter : LogFormatter
  appenders : List LogAppender
  deriving DecidableEq, Repr

namespace Logger

def new (name : Text) : Logger := ⟨name, .debug, ⟨defaultPattern⟩, []⟩

def setLevel (val : LogLevel) (l : Logger) : Logger := { l with level := val }

/-- `setFormatter(LogFormatter::ptr)`. -/
def setFormatterPtr (val : LogFormatter) (l : Logger) : Logger :=
  { l with
    formatter := val
    appenders := l.appenders.map fun a =>
      if a.hasFormatter then a else { a with formatter := some val } }

/-- `setFormatter(const std::string&)`. A pattern in error is not taken. -/
def setFormatter (val : Text) (l : Logger) : Logger :=
  if LogFormatter.isError ⟨val⟩ then l else l.setFormatterPtr ⟨val⟩

def addAppender (appender : LogAppender) (l : Logger) : Logger :=
  let appender := match appender.formatter with
    | none => { appender with formatter := some l.formatter }
    | some _ => appender
  { l with appenders := l.appenders ++ [appender] }

def clearAppenders (l : Logger) : Logger := { l with appenders := [] }

end Logger

structure LoggerManager where
  loggers : Text → Option Logger

namespace LoggerManager

/-- `getLogger(name)`, which makes the logger when there is none. -/
def getLogger (name : Text) (m : LoggerManager) : Logger :=
  (m.loggers name).getD (Logger.new name)

/-- The loggers after the logger that `getLogger(name)` returns has been changed. -/
def store (name : Text) (l : Logger) (m : LoggerManager) : LoggerManager :=
  ⟨Function.update m.loggers name (some l)⟩

end LoggerManager

/-! ## The file of a `FileLogAppender` -/

structure FileLogAppender where
  level : LogLevel
  lastTime : UInt64
  content : Text
  deriving DecidableEq, Repr

/-- One call of `log`: the level, the reading of `time(0)`, and the event. -/
structure LogCall (ε : Type) where
  level : LogLevel
  now : UInt64
  event : ε

namespace FileLogAppender

/-- `reopen()`. -/
def reopen (a : FileLogAppender) : FileLogAppender := { a with content := [] }

/-- The constructor, with the level that is set before the first call. -/
def new (level : LogLevel) : FileLogAppender := reopen ⟨level, 0, []⟩

variable {ε : Type} (format : ε → Text)

/-- `log(logger, level, event)`. `format` is the text that the formatter makes of an event. -/
def log (a : FileLogAppender) (c : LogCall ε) : FileLogAppender :=
  if a.level.toNat ≤ c.level.toNat then
    let a := if a.lastTime + 3 ≤ c.now then { a.reopen with lastTime := c.now } else a
    { a with content := a.content ++ format c.event }
  else a

/-- A sequence of calls. -/
def logAll (a : FileLogAppender) (calls : List (LogCall ε)) : FileLogAppender :=
  calls.foldl (log format) a

/-- The texts of all events whose level is high enough, in order. -/
def texts (level : LogLevel) (calls : List (LogCall ε)) : Text :=
  (calls.filter fun c => level.toNat ≤ c.level.toNat).flatMap fun c => format c.event

end FileLogAppender

end Sylar.Log
