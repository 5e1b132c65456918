import JackToVm.Config.Document
import JackToVm.Text.Blank
import JackToVm.Text.Quoted

/-!
Build configuration: where the compiled classes go, and how their files are called. What a configuration
file does not set has a default. Reading a file that is not blank is left to a reader of its format;
`Config.ofText` is one for documents of lines and of maps in braces.
-/

namespace JackToVm

/-- Where compiled classes go. -/
structure Config where
  /-- The output directory, inside the directory of the sources. -/
  outputDir : String := "output"
  /-- The extension of the files in it. -/
  extension : String := "vm"
deriving DecidableEq, Repr, Inhabited

/-- Why a configuration file cannot be used. -/
inductive ConfigError where
  /-- The file is not a document. -/
  | document (cause : Config.DocumentError)
  /-- The document is not a map. -/
  | notAMap
  /-- A key of the map is not a text. -/
  | keyNotAText
  /-- The value of a setting is not a text. -/
  | notAText (key : String)
  /-- A setting stands there twice. -/
  | repeated (key : String)
deriving DecidableEq, Repr, Inhabited

/-- A reader of the format of configuration files. -/
abbrev ConfigReader := String → Except ConfigError Config

namespace Config

/-- The entries of a map with the texts of their keys and values. Every key has to have one. -/
def textEntries (document : Document) (entries : List (Value × Value)) :
    Except ConfigError (List (String × Option String)) :=
  entries.mapM fun (key, value) =>
    match document.text? key with
    | some key => .ok (key, document.text? value)
    | none => .error .keyNotAText

/-- The value of a setting, if there is one. -/
def setting? (entries : List (String × Option String)) (key : String) : Except ConfigError (Option String) :=
  match entries.filter (·.1 = key) with
  | [] => .ok none
  | [(_, some text)] => .ok (some text)
  | [(_, none)] => .error (.notAText key)
  | _ => .error (.repeated key)

/-- The configuration that the entries of a map give. Keys that are no setting do not matter. -/
def ofEntries (entries : List (String × Option String)) : Except ConfigError Config := do
  let base : Config := {}
  let outputDir? ← setting? entries "output_dir"
  let extension? ← setting? entries "extension"
  return {
    outputDir := outputDir?.getD base.outputDir
    extension := extension?.getD base.extension }

def ofDocument (document : Document) : Except ConfigError Config :=
  match document.root with
  | .empty => .ok {}
  | .map entries => do ofEntries (← textEntries document entries)
  | _ => .error .notAMap

/-- The configuration of a text that is a document. An empty document leaves the defaults. -/
def ofText (text : String) : Except ConfigError Config :=
  match Document.read text with
  | .error cause => .error (.document cause)
  | .ok document => ofDocument document

/-- The configuration in the text of a file. Blanks alone leave the defaults, and the reader of the format
does not see them. -/
def parse (reader : ConfigReader) (text : String) : Except ConfigError Config :=
  if text.toList.all Text.isBlank then .ok {} else reader text

/-- A configuration as it is shown in a log. -/
def describe (config : Config) : String :=
  s!"BuildConf \x7b output_dir: {Text.quoted config.outputDir}, extension: {Text.quoted config.extension} \x7d"

end Config

end JackToVm
