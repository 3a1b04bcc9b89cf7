namespace ImpLang

inductive Action where
  | run
  | parse
  | lex
deriving DecidableEq, Repr

namespace Action

def name : Action → String
  | run => "run"
  | parse => "parse"
  | lex => "lex"

def all : List Action := [run, parse, lex]

def ofName? (name : String) : Option Action := all.find? (·.name == name)

def takesBigint : Action → Bool
  | run => true
  | parse => true
  | lex => false

def takesLet : Action → Bool
  | run => true
  | parse => false
  | lex => false

def help : Action → String
  | run =>
    "Usage: impcomb run [-l <let>] [--bigint] [--] <file>\n\n" ++
    "Runs an .imp file using a simple tree-walk interpreter. " ++
    "Variables that are not bound with the --let option start at zero.\n\n" ++
    "Positional Arguments:\n" ++
    "  file              a path to an .imp file\n\n" ++
    "Options:\n" ++
    "  -l, --let         define a set of variable bindings via a comma-separated list\n" ++
    "                    (e.g. \x7b\x7b x: 2, y: -1 \x7d\x7d), where the empty set is given\n" ++
    "                    by \x7b\x7b\x7d\x7d\n" ++
    "  --bigint          use arbitrary-precision integers during execution\n" ++
    "  --help, help      display usage information\n"
  | parse =>
    "Usage: impcomb parse [--bigint] [--] <file>\n\n" ++
    "Parses an .imp file and prints the resulting syntax tree.\n\n" ++
    "Positional Arguments:\n" ++
    "  file              a path to an .imp file\n\n" ++
    "Options:\n" ++
    "  --bigint          accept integer literals of any size, as `run --bigint` does\n" ++
    "  --help, help      display usage information\n"
  | lex =>
    "Usage: impcomb lex [--] <file>\n\n" ++
    "Tokenizes an .imp file and prints each token on its own line.\n\n" ++
    "Positional Arguments:\n" ++
    "  file              a path to an .imp file\n\n" ++
    "Options:\n" ++
    "  --help, help      display usage information\n"

end Action

def programHelp : String :=
  "Usage: impcomb <command> [<args>]\n\n" ++
  "A parser-combinator interpreter for the IMP programming language.\n\n" ++
  "Options:\n" ++
  "  --help, help      display usage information\n\n" ++
  "Commands:\n" ++
  "  run               Runs an .imp file using a simple tree-walk interpreter.\n" ++
  "                    Variables that are not bound with the --let option start at\n" ++
  "                    zero.\n" ++
  "  parse             Parses an .imp file and prints the resulting syntax tree.\n" ++
  "  lex               Tokenizes an .imp file and prints each token on its own\n" ++
  "                    line.\n"

end ImpLang
