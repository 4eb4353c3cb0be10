import ShaderTree.Validity.Error

/-!
The log of a compilation: records of what the symbol table and the passes did.
-/
namespace ShaderTree

inductive LogLevel where
  | trace
  | debug
  | warn
  deriving DecidableEq, Repr

def LogLevel.text : LogLevel → String
  | trace => "TRACE"
  | debug => "DEBUG"
  | warn => "WARN"

inductive LogRecord where
  | builtInsInjected (count : Nat) (profile : Profile)
  | scopeEntered (level : Nat)
  | scopeLeft (level : Nat)
  | declaring (key : String) (id : Identity) (level : Nat)
  | invalidTree (error : ValidationError)
  | scalarized (constructor : NodeId)
  | scalarizedCount (count : Nat)
  | structRenamed (before after : String)
  | renamedCount (count : Nat)
  | passStarted (pass : String)
  | passFinished (pass : String)
  deriving DecidableEq

namespace LogRecord

def level : LogRecord → LogLevel
  | builtInsInjected _ _ | scopeEntered _ | scopeLeft _ | declaring _ _ _ => .trace
  | invalidTree _ => .warn
  | _ => .debug

def message : LogRecord → String
  | builtInsInjected count profile =>
    s!"Injected {count} built-ins for " ++ profile.version.text ++ " " ++ profile.stage.text
  | scopeEntered level => s!"Entering scope level {level}"
  | scopeLeft level => s!"Leaving scope level {level}"
  | declaring key id level => "Declaring " ++ key ++ " (" ++ id.text ++ s!") at level {level}"
  | invalidTree error => "AST validation failed: " ++ error.message
  | scalarized constructor => "Scalarized the arguments of constructor " ++ constructor.text
  | scalarizedCount count => s!"Scalarized {count} constructors"
  | structRenamed before after =>
    "Renaming structure `" ++ before ++ "` to `" ++ after ++ "`"
  | renamedCount count => s!"Renamed {count} structures"
  | passStarted pass => "Running " ++ pass
  | passFinished pass => "Finished " ++ pass

def text (record : LogRecord) : String := record.level.text ++ " " ++ record.message

end LogRecord

end ShaderTree
