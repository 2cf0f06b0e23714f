import MailTemplate.Compile.Compiler

/-! The command line: what the arguments ask for, and what a run prints, writes and returns. -/

namespace MailTemplate
namespace CommandLine

structure Request where
  config : Option Text
  source : Option Text
  dist : Option Text
  stylesheet : Option Text
  noIncludes : Bool
  toStdout : Bool
  template : Option Text
  deriving Repr, DecidableEq

inductive Refusal where
  | help
  | missingValue (flag : Text)
  | unknownFlag (flag : Text)
  | unexpected (argument : Text)
  deriving Repr, DecidableEq

/-- The end of a run: the exit code, what was printed, and the files. -/
structure Finish where
  exit : Nat
  out : Text
  err : Text
  files : FileSystem
  deriving Repr, DecidableEq

def Request.empty : Request := ⟨none, none, none, none, false, false, none⟩

/-- An option that takes a value, if a text is one: the request with the value. -/
def Request.setter? (request : Request) (flag : Text) : Option (Text → Request) :=
  if flag = "--src".toList ∨ flag = "-s".toList then
    some fun value => { request with source := some value }
  else if flag = "--dist".toList ∨ flag = "-d".toList then
    some fun value => { request with dist := some value }
  else if flag = "--css".toList ∨ flag = "-c".toList then
    some fun value => { request with stylesheet := some value }
  else if flag = "--config".toList then
    some fun value => { request with config := some value }
  else none

/-- The request of the remaining arguments, read from left to right up to the first problem. A later
value of an option takes the place of an earlier one; there is at most one template. -/
def Request.read (request : Request) : List Text → Except Refusal Request
  | [] => .ok request
  | argument :: rest =>
    match request.setter? argument, rest with
    | some _, [] => .error (.missingValue argument)
    | some set, value :: rest => (set value).read rest
    | none, rest =>
      if argument = "--no-includes".toList then
        Request.read { request with noIncludes := true } rest
      else if argument = "--stdout".toList then
        Request.read { request with toStdout := true } rest
      else if argument = "--help".toList ∨ argument = "-h".toList then .error .help
      else if argument.head? = some '-' then .error (.unknownFlag argument)
      else if request.template.isSome then .error (.unexpected argument)
      else Request.read { request with template := some argument } rest

def line (text : Text) : Text := text ++ ['\n']

def usage (program : Text) : Text :=
  [ "forge – email template compiler (mail-forge)".toList,
    [],
    "Usage:".toList,
    "  ".toList ++ program ++ " [OPTIONS] [TEMPLATE]".toList,
    [],
    "Arguments:".toList,
    "  [TEMPLATE]       Template name to compile, e.g. emails/welcome (default: all)".toList,
    [],
    "Options:".toList,
    "  --src, -s DIR    Source templates directory (default: templates)".toList,
    "  --dist, -d DIR   Output directory (default: dist)".toList,
    "  --css, -c FILE   External stylesheet to inline".toList,
    "  --config FILE    JSON config file; flags override its values".toList,
    "  --no-includes    Leave \x7b% include %\x7d tags for the runtime renderer".toList,
    "  --stdout         Print a single compiled template instead of writing it".toList,
    "  --help           Print this message".toList ].flatMap line

def Refusal.answer (program : Text) : Refusal → Nat × Text
  | help => (0, usage program)
  | missingValue flag => (1, line ("Missing value for ".toList ++ flag) ++ usage program)
  | unknownFlag flag => (1, line ("Unknown flag: ".toList ++ flag) ++ usage program)
  | unexpected argument => (1, line ("Unexpected argument: ".toList ++ argument) ++ usage program)

def Request.override (request : Request) (config : Config) : Config where
  sourceRoot := request.source.getD config.sourceRoot
  distRoot := request.dist.getD config.distRoot
  stylesheetPath := request.stylesheet.or config.stylesheetPath
  inlineIncludes := config.inlineIncludes && !request.noIncludes
  maxDepth := config.maxDepth

def Request.baseConfig (request : Request) (files : FileSystem) : Except Text Config :=
  match request.config with
  | none => .ok Config.standard
  | some path => (Config.ofFile files path).mapError fun e =>
      "Error reading '".toList ++ path ++ "': ".toList ++ e.message

def compileOne (compiler : Compiler) (files : FileSystem) (nonce name : Text) (toStdout : Bool) :
    Finish :=
  let outcome := compiler.compile files nonce name (!toStdout)
  match outcome.result with
  | .error e =>
    ⟨1, [], line ("Error compiling '".toList ++ name ++ "': ".toList ++ e.message), outcome.files⟩
  | .ok compiled =>
    if toStdout then ⟨0, compiled.html, [], outcome.files⟩
    else ⟨0, [], line ("Compiled '".toList ++ compiled.name ++ ['\'']), outcome.files⟩

def compileAll (compiler : Compiler) (files : FileSystem) (nonces : Nat → Text) : Finish :=
  let outcome := compiler.compileAll files nonces
  match outcome.result with
  | .error e => ⟨1, [], line ("Error: ".toList ++ e.message), outcome.files⟩
  | .ok report => ⟨if report.isSuccess then 0 else 1, line report.toJson, [], outcome.files⟩

/-- A run with the given arguments, the name of the program not among them. -/
def run (program : Text) (arguments : List Text) (files : FileSystem) (nonces : Nat → Text) :
    Finish :=
  match Request.empty.read arguments with
  | .error refusal =>
    let (exit, err) := refusal.answer program
    ⟨exit, [], err, files⟩
  | .ok request => match request.baseConfig files with
    | .error err => ⟨1, [], line err, files⟩
    | .ok config =>
      let compiler := Compiler.ofConfig (request.override config)
      match request.template with
      | some name => compileOne compiler files (nonces 0) name request.toStdout
      | none => compileAll compiler files nonces

end CommandLine
end MailTemplate
