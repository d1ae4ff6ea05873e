import DeclBundle.CommandLine.Misuse

/-!
# Usage

What the program says about its own use: a summary of its arguments, the explanation that a call for help
shows, and the complaint about a misuse, which repeats the summary.
-/

namespace DeclBundle.CommandLine

namespace Usage

def program : String := "dts-bundler"

def summary : List String := [
  "usage: dts-bundler [-h] [-c CONFIG] [--name NAME] [--base-dir BASE_DIR]",
  "                   [--out OUT] [--main MAIN] [--exclude EXCLUDE]",
  "                   [--extern EXTERN] [--eol \x7bcrlf,lf\x7d] [--indent INDENT]",
  "                   [--target TARGET] [--tsc TSC] [--timeout TIMEOUT]",
  "                   [--project PROJECT] [--log-level LOG_LEVEL]",
  "                   [--log-file LOG_FILE]",
  "                   [files ...]"
]

def meanings : List String := [
  "",
  "Bundle TypeScript declarations into a single .d.ts file",
  "",
  "positional arguments:",
  "  files                 Entry source or declaration files",
  "",
  "options:",
  "  -h, --help            show this help message and exit",
  "  -c CONFIG, --config CONFIG",
  "                        Options file (dts-bundler.json / dts-bundler.yaml)",
  "  --name NAME           Package name prefixed to every module id",
  "  --base-dir BASE_DIR   Directory module ids are relative to",
  "  --out OUT             Output .d.ts file",
  "  --main MAIN           Module id re-exported as the package itself",
  "  --exclude EXCLUDE     Glob of files to leave out (repeatable)",
  "  --extern EXTERN       Reference path to write at the top (repeatable)",
  "  --eol \x7bcrlf,lf\x7d       Line terminator",
  "  --indent INDENT       Indent unit: spaces count, 'tab' or a literal string",
  "  --target TARGET       Language level passed to the compiler",
  "  --tsc TSC             TypeScript compiler command",
  "  --timeout TIMEOUT     Seconds before the compiler run is abandoned",
  "  --project PROJECT     tsconfig.json to use instead of <base-",
  "                        dir>/tsconfig.json",
  "  --log-level LOG_LEVEL",
  "                        Logging level (default: $LOG_LEVEL or INFO)",
  "  --log-file LOG_FILE   Also log to this file"
]

def text (lines : List String) : String := String.join (lines.map fun l => l ++ "\n")

def help : String := text (summary ++ meanings)

def complaint (m : Misuse) : String := text (summary ++ [program ++ ": error: " ++ m.message])

end Usage

end DeclBundle.CommandLine
