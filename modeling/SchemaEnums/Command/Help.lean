/-!
# Command — Help

What the program says about itself: its version, and its usage in a short and a long form.
-/

namespace SchemaEnums.Command

/-- The name under which the program is called. -/
def programName : String := "prisma-genumerate"

/-- The answer to a question for the version. -/
def versionText : String := programName ++ " 0.3.0\n"

/-- Lines of text. -/
def lines (ls : List String) : String :=
  String.join (ls.map (· ++ "\n"))

/-- What precedes the options in both forms. -/
def usage : List String :=
  ["Generate TypeScript enums from a Prisma schema",
   "",
   "Usage: " ++ programName ++ " [OPTIONS] <SCHEMA>",
   "",
   "Arguments:"]

/-- What follows the options in both forms. -/
def examples : List String :=
  ["",
   "Examples:",
   "  Write the generated enums to a file:",
   "    $ " ++ programName ++ " ./schema.prisma -o ./src/constants/model.constant.ts",
   "  Print them instead of saving:",
   "    $ " ++ programName ++ " ./schema.prisma --print",
   "  Or both:",
   "    $ " ++ programName ++
     " ./schema.prisma -o ./src/constants/model.constant.ts --print"]

/-- The short form: one line for each option. -/
def shortHelp : String := lines <| usage ++
  ["  <SCHEMA>  Prisma schema file, relative to the working directory",
   "",
   "Options:",
   "  -o, --output <FILE>  Output file path",
   "      --print          Print the result to the console",
   "      --strict         Fail instead of generating empty enums when the schema cannot be " ++
     "read or parsed",
   "      --check          Do not write; fail if the output file is out of date",
   "      --emit <LIST>    Declarations to generate (default: all) [possible values: " ++
     "prisma-model, model-name, table-name, enums]",
   "  -v, --version        Print version",
   "  -h, --help           Print help (see more with '--help')"] ++
  examples

/-- The long form: a paragraph for each option. -/
def longHelp : String := lines <| usage ++
  ["  <SCHEMA>",
   "          Prisma schema file, relative to the working directory",
   "",
   "Options:",
   "  -o, --output <FILE>",
   "          Output file path",
   "",
   "      --print",
   "          Print the result to the console",
   "",
   "      --strict",
   "          Fail instead of generating empty enums when the schema cannot be read or parsed",
   "",
   "      --check",
   "          Do not write; fail if the output file is out of date",
   "",
   "      --emit <LIST>",
   "          Declarations to generate (default: all)",
   "",
   "          Possible values:",
   "          - prisma-model: `PrismaModel`: camelCased model names (Prisma client accessors)",
   "          - model-name:   `ModelName`: model names as declared",
   "          - table-name:   `TableName`: `@@map` table names, or the model names when nothing " ++
     "is mapped",
   "          - enums:        `<Name>Enum` for every schema enum",
   "",
   "  -v, --version",
   "          Print version",
   "",
   "  -h, --help",
   "          Print help (see a summary with '-h')"] ++
  examples

end SchemaEnums.Command
