import ZigGolf.Bytes.Basic

/-!
# Name, version and usage of the tool
-/

namespace ZigGolf

/-- The three numbers of the version. -/
def versionNumbers : Nat × Nat × Nat := (0, 1, 0)

/-- The name of the tool with its version. -/
def versionText : Bytes :=
  let (major, minor, patch) := versionNumbers
  ascii "zigmin v" ++ decimal major ++ ascii "." ++ decimal minor ++ ascii "." ++ decimal patch

/-- How the tool is called. -/
def usageText : Bytes :=
  ascii
    "zigmin - minify Zig source for code golf

usage:
  zigmin [<path> | --file <path>] [-o <path>] [options]
  zigmin --version
  zigmin --help

Reads stdin when no path (or \"-\") is given and writes stdout unless -o is set.

Options:
  --ptr64                 rename isize/usize to i64/u64 (64-bit targets)
  --dump-tokens           print the token stream instead of minifying
  --context N             source lines shown around diagnostics (default 2)
  -fmax-source-size=N     reject inputs larger than N bytes (default 1048576)
"

end ZigGolf
