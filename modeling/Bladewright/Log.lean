import Bladewright.Compilation

/-!
The log: which records pass, and how they are written. A record has a level, the name of the part of the program it
comes from, and a message.
-/
namespace Bladewright.Log

open Bladewright.Host

def rootName : String := "symga"

def loggerName (part : String) : String := rootName ++ "." ++ part

structure Record where
  level : Int
  part : String
  message : String

def levelNames : List (Int × String) :=
  [(0, "NOTSET"), (10, "DEBUG"), (20, "INFO"), (30, "WARNING"), (40, "ERROR"), (50, "CRITICAL")]

def debug : Int := 10

def info : Int := 20

def warning : Int := 30

def levelName (level : Int) : String :=
  (levelNames.lookup level).getD ("Level " ++ toString level)

/-- Settings that stand under a name but are no levels: a format, and a table of styles. -/
def otherSettings : List (String × Fault) :=
  [("BASIC_FORMAT", .valueError none), ("_STYLES", .typeError)]

/-- The level with a name, in capitals or not. An unknown name stands for the usual level. -/
def readLevel (name : String) : Except Fault Int :=
  let name := name.toUpper
  match otherSettings.lookup name with
  | some fault => throw fault
  | none =>
    if name == "FATAL" then return 50
    else if name == "WARN" then return warning
    else match levelNames.find? (·.2 == name) with
      | some (level, _) => return level
      | none => return info

def passes (level : Int) (r : Record) : Bool := (if level = 0 then warning else level) ≤ r.level

def colour (level : Int) : String :=
  match level with
  | 10 => "\x1b[36m"
  | 20 => "\x1b[32m"
  | 30 => "\x1b[33m"
  | 40 => "\x1b[31m"
  | 50 => "\x1b[35m"
  | _ => ""

def plain : String := "\x1b[0m"

def Record.text (coloured : Bool) (r : Record) : String :=
  let name := levelName r.level
  let name := if coloured then colour r.level ++ name ++ plain else name
  name ++ " " ++ loggerName r.part ++ ": " ++ r.message

def ofEvent (event : Event) : Record := ⟨debug, event.origin, event.message⟩

def written (level : Int) (coloured : Bool) (records : List Record) : String :=
  String.join ((records.filter (passes level)).map fun r => r.text coloured ++ "\n")

end Bladewright.Log
