import ImageImports.Cli.Arguments

/-!
# `ImageImports.Cli.Help`: what the program tells about itself
-/

set_option autoImplicit false

namespace ImageImports.Cli

/-- The name of the program and its version. -/
def versionLine : String := "mdx-images 0.1.0"

/-- The lines of help about the program. -/
def programHelp : List String :=
  ["Import Markdown images as modules in MDX documents (mdast JSON)",
    "",
    "Usage: mdx-images [OPTIONS] [INPUT]",
    "       mdx-images <COMMAND>",
    "",
    "Commands:",
    "  init  Create a sample configuration file",
    "  help  Print this message or the help of the given subcommand(s)",
    "",
    "Arguments:",
    "  [INPUT]  Input mdast JSON file or directory",
    "",
    "Options:",
    "  -o, --output <OUTPUT>",
    "          Output file or directory",
    "  -j, --jobs <JOBS>",
    "          Number of parallel jobs (defaults to number of CPUs)",
    "  -r, --recursive",
    "          Process directories recursively",
    "      --no-resolve",
    "          Leave bare image URLs unresolved; only ./ and ../ paths are imported",
    "      --source-file-dir <SOURCE_FILE_DIR>",
    "          Directory of the source document, relative to the content root",
    "      --metadata <METADATA>",
    "          JSON file with document metadata "
      ++ "(\x7b\"rawDocumentData\": \x7b\"sourceFileDir\": ...\x7d\x7d)",
    "      --pretty",
    "          Pretty-print output JSON",
    "  -c, --config <CONFIG>",
    "          Configuration file (defaults to _mdx-images.toml next to the input)",
    "  -v, --verbose",
    "          Verbose output",
    "  -q, --quiet",
    "          Quiet mode - only show errors",
    "  -h, --help",
    "          Print help",
    "  -V, --version",
    "          Print version",
    "",
    "Examples:",
    "  mdx-images post.json                          # Rewrite to post.mdx.json",
    "  mdx-images post.json -o out.json              # Rewrite to a specific file",
    "  mdx-images post.json --source-file-dir blog   # Resolve bare URLs under ./data/blog/",
    "  mdx-images content/ -o build/ -r -j4          # Rewrite a directory with 4 jobs",
    "  mdx-images init                               # Write a sample _mdx-images.toml"]

/-- The lines of help about the command that writes a configuration file. -/
def initHelp : List String :=
  ["Create a sample configuration file",
    "",
    "Usage: mdx-images init [OPTIONS]",
    "",
    "Options:",
    "  -o, --output <OUTPUT>  Output path for the configuration file",
    "      --schema           Print the JSON schema of the configuration file instead",
    "      --force            Overwrite an existing configuration file",
    "  -h, --help             Print help"]

/-- The lines of help about the command that shows help. -/
def helpHelp : List String :=
  ["Print this message or the help of the given subcommand(s)",
    "",
    "Usage: mdx-images help [COMMAND]...",
    "",
    "Arguments:",
    "  [COMMAND]...  Print help for the subcommand(s)"]

/-- The lines of help about a topic. -/
def HelpTopic.lines : HelpTopic → List String
  | .program => programHelp
  | .init => initHelp
  | .help => helpHelp

end ImageImports.Cli
