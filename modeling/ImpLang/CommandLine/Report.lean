import ImpLang.CommandLine.Arguments
import ImpLang.CommandLine.Files
import ImpLang.Command.Machine
import ImpLang.Command.Program

namespace ImpLang

inductive Failure where
  | unreadable (file : String) (cause : FileError)
  | unparsable (file : String) (cause : SyntaxError)
  | untokenizable (file : String) (cause : LexError)
  | halted (file : String) (cause : Fault)
deriving DecidableEq, Repr

def Failure.chain : Failure → List String
  | unreadable file cause => ["could not read " ++ file, cause.message]
  | unparsable file cause => ["could not parse " ++ file, cause.message]
  | untokenizable file cause => ["could not tokenize " ++ file, cause.message]
  | halted file cause => ["execution of " ++ file ++ " halted", cause.message]

structure Report where
  output : String
  failure : Option Failure

namespace Report

def failed (f : Failure) : Report := ⟨"", some f⟩

def ofRun (T : Type) [Number T] (steps : Nat) (file source : String) (s : Store Int64) :
    Option Report :=
  match (Command.ofSource source : Except SyntaxError (Command T)) with
  | .error e => some (failed (.unparsable file e))
  | .ok c =>
    (c.run none steps (s.map Number.embed)).map fun o =>
      ⟨o.world.output ++ "\nExecuted " ++ file ++ ", yielding the following final state: " ++
        o.world.store.render ++ "\n", o.fault.map (.halted file)⟩

def ofParse (T : Type) [Number T] (file source : String) : Report :=
  match (Command.ofSource source : Except SyntaxError (Command T)) with
  | .error e => failed (.unparsable file e)
  | .ok c => ⟨c.render ++ "\n\n(" ++ toString c.size ++ " nodes)\n", none⟩

def ofLex (file source : String) : Report :=
  match tokenize source with
  | .error e => failed (.untokenizable file e)
  | .ok ts => ⟨String.join (ts.map fun t => t.render ++ "\n"), none⟩

end Report

/-- Carries out an invocation; nothing if a program takes more than `steps` steps. -/
def Invocation.report (files : Files) (steps : Nat) (i : Invocation) : Option Report :=
  match files.read i.file with
  | .error e => some (.failed (.unreadable i.file e))
  | .ok source =>
    match i.action with
    | .run =>
      if i.bigint then Report.ofRun Int steps i.file source i.store
      else Report.ofRun Int64 steps i.file source i.store
    | .parse => some (if i.bigint then .ofParse Int i.file source else .ofParse Int64 i.file source)
    | .lex => some (.ofLex i.file source)

structure Ending where
  status : UInt32
  output : String
  errorOutput : String
deriving DecidableEq, Repr

namespace Ending

def ofExit : EarlyExit → Ending
  | .help text => ⟨0, text ++ "\n", ""⟩
  | .usage e => ⟨1, "", e.message ++ "\nRun impcomb --help for more information.\n"⟩

def ofReport (r : Report) : Ending :=
  match r.failure with
  | none => ⟨0, r.output, ""⟩
  | some f => ⟨1, r.output, "error: " ++ ": ".intercalate f.chain ++ "\n"⟩

def ofArguments (files : Files) (steps : Nat) (args : List String) : Option Ending :=
  match Invocation.ofArguments args with
  | .error e => some (ofExit e)
  | .ok i => (i.report files steps).map ofReport

end Ending

end ImpLang
