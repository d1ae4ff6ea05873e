/-!
# Switches

The options of the command line. A switch has one or two spellings, all of them listed in
`Switch.spellings` in the order in which they are looked through; a beginning that only one of them has
stands for it. `title` names a switch in messages.
-/

namespace DeclBundle.CommandLine

/-- The options of the command line. -/
inductive Switch where
  | help
  | config
  | name
  | baseDir
  | out
  | main
  | exclude
  | reference
  | eol
  | indent
  | target
  | tsc
  | timeout
  | project
  | logLevel
  | logFile
deriving DecidableEq, Repr

namespace Switch

def spellings : List (String × Switch) := [
  ("-h", help), ("--help", help), ("-c", config), ("--config", config), ("--name", name),
  ("--base-dir", baseDir), ("--out", out), ("--main", main), ("--exclude", exclude),
  ("--extern", reference), ("--eol", eol), ("--indent", indent), ("--target", target), ("--tsc", tsc),
  ("--timeout", timeout), ("--project", project), ("--log-level", logLevel), ("--log-file", logFile)
]

def ofSpelling? (spelling : String) : Option Switch := spellings.lookup spelling

def ofLetter? (c : Char) : Option Switch := ofSpelling? (String.ofList ['-', c])

def beginningWith (text : String) : List (String × Switch) :=
  spellings.filter fun e => text.toList.isPrefixOf e.1.toList

def spellingsOf (s : Switch) : List String := (spellings.filter fun e => e.2 == s).map Prod.fst

def title (s : Switch) : String := "/".intercalate s.spellingsOf

end Switch

end DeclBundle.CommandLine
