import ImpLang.CommandLine.Help
import ImpLang.Store.Reader

namespace ImpLang

inductive UsageError where
  | argumentAfterHelp
  | unrecognized (argument : String)
  | missingValue (option : String)
  | repeatedValue (option value : String)
  | badValue (option value : String) (cause : Store.ReadError Position)
  | missingAction
  | missingFile
deriving DecidableEq, Repr

def UsageError.message : UsageError → String
  | argumentAfterHelp => "Trailing arguments are not allowed after `help`."
  | unrecognized arg => "Unrecognized argument: " ++ arg ++ "\n"
  | missingValue opt => "No value provided for option '" ++ opt ++ "'.\n"
  | repeatedValue opt value =>
    "Error parsing option '" ++ opt ++ "' with value '" ++ value ++
      "': duplicate values provided\n"
  | badValue opt value cause =>
    "Error parsing option '" ++ opt ++ "' with value '" ++ value ++ "': \nerror trace:\n" ++
      cause.message ++ "\n"
  | missingAction =>
    "One of the following subcommands must be present:\n    help\n" ++
      String.join (Action.all.map fun a => "    " ++ a.name ++ "\n")
  | missingFile => "Required positional arguments not provided:\n    file\n"

inductive EarlyExit where
  | help (text : String)
  | usage (e : UsageError)
deriving DecidableEq, Repr

structure Request where
  helped : Bool
  /-- Whether the mark has been seen behind which no argument is an option. -/
  optionsOver : Bool
  bigint : Bool
  bindings : Option (Store Int64)
  file : Option String
deriving DecidableEq

def Request.start (helped : Bool) : Request := ⟨helped, false, false, none, none⟩

structure Invocation where
  action : Action
  file : String
  bigint : Bool
  store : Store Int64
deriving DecidableEq

namespace CommandLine

def isHelp (arg : String) : Bool := arg == "--help" || arg == "help"

def isOption (arg : String) : Bool := arg.toList.head? == some '-'

def finish (a : Action) (r : Request) : Except EarlyExit Invocation :=
  if r.helped then .error (.help a.help)
  else
    match r.file with
    | none => .error (.usage .missingFile)
    | some file => .ok ⟨a, file, r.bigint, r.bindings.getD .empty⟩

def readAction (a : Action) : List String → Request → Except EarlyExit Invocation
  | [], r => finish a r
  | arg :: args, r =>
    if !r.optionsOver && isHelp arg then readAction a args { r with helped := true }
    else if !r.optionsOver && isOption arg then
      if arg == "--" then readAction a args { r with optionsOver := true }
      else if r.helped then .error (.usage .argumentAfterHelp)
      else if a.takesBigint && arg == "--bigint" then readAction a args { r with bigint := true }
      else if a.takesLet && (arg == "--let" || arg == "-l") then
        match args with
        | [] => .error (.usage (.missingValue arg))
        | value :: args =>
          if r.bindings.isSome then .error (.usage (.repeatedValue arg value))
          else
            match Store.read value with
            | .error e => .error (.usage (.badValue arg value e))
            | .ok s => readAction a args { r with bindings := some s }
      else .error (.usage (.unrecognized arg))
    else
      match r.file with
      | none => readAction a args { r with file := some arg }
      | some _ => .error (.usage (.unrecognized arg))

/-- Reads all arguments; the first that is no option names the action. -/
def read : List String → (helped optionsOver : Bool) → Except EarlyExit Invocation
  | [], helped, _ => .error (if helped then .help programHelp else .usage .missingAction)
  | arg :: args, helped, optionsOver =>
    if !optionsOver && isHelp arg then read args true optionsOver
    else if !optionsOver && isOption arg then
      if arg == "--" then read args helped true
      else .error (.usage (if helped then .argumentAfterHelp else .unrecognized arg))
    else
      match Action.ofName? arg with
      | some a => readAction a args (.start helped)
      | none => .error (.usage (.unrecognized arg))

end CommandLine

def Invocation.ofArguments (args : List String) : Except EarlyExit Invocation :=
  CommandLine.read args false false

end ImpLang
