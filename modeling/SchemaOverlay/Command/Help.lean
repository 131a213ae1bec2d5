import SchemaOverlay.Command.Arguments

/-!
What the program says about its own use.
-/
namespace SchemaOverlay

def versionText : String := "schema-overlay 0.1.0"

def helpText : String :=
  "Apply an overrides document of @create/@replace/@upsert/@delete/@remove/@extend/@exclude " ++
    "directives to a base GraphQL schema.\n\n" ++
    "Usage: schema-overlay [OPTIONS] [COMMAND]\n\n" ++
    "Commands:\n" ++
    "  apply   Apply one overrides document to one schema\n" ++
    "            -s, --schema <SCHEMA>        a path or SDL text\n" ++
    "            -r, --overrides <OVERRIDES>  a path or SDL text\n" ++
    "            -o, --output <OUTPUT>        the path of the merged schema\n" ++
    "  config  Run every override job listed in a configuration file\n" ++
    "            -c, --config <CONFIG>        a file, or the directory it lies in\n" ++
    "  help    Print this message\n\n" ++
    "Options:\n" ++
    "  -v, --verbose  Enable verbose output\n" ++
    "  -h, --help     Print help\n" ++
    "  -V, --version  Print version"

def Usage.message : Usage → String
  | .displayHelp => helpText
  | .displayVersion => versionText
  | .missingRequiredArgument => "error: a required argument was not provided"
  | .unknownArgument => "error: unexpected argument"
  | .invalidSubcommand => "error: unrecognized subcommand"
  | .invalidValue => "error: an argument needs a value"
  | .argumentConflict => "error: an argument cannot be used multiple times"
  | .tooManyValues => "error: an argument takes no value"

end SchemaOverlay
