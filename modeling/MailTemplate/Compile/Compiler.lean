import MailTemplate.Compile.Discover
import MailTemplate.Compile.Include
import MailTemplate.Compile.Inherit
import MailTemplate.Json.Write
import MailTemplate.Render

/-! Compilers. A compiler joins, renders and writes templates under one configuration. The
stylesheet is read when it is first needed and never again. -/

namespace MailTemplate

/-- A compiler: its configuration, and what the stylesheet came to if it has been read. -/
structure Compiler where
  config : Config
  stylesheet : Option Loaded

structure Compiled where
  name : Text
  html : Text
  deriving Repr, DecidableEq

structure Failure where
  name : Text
  error : CompileError
  deriving Repr, DecidableEq

structure Report where
  compiled : List Text
  failed : List Failure
  deriving Repr, DecidableEq

namespace Report

def isSuccess (report : Report) : Bool := report.failed.isEmpty

def toJson (report : Report) : Text :=
  Json.object 0 [
    ("compiled", Json.list 1 (report.compiled.map Json.quote)),
    ("failed", Json.list 1 (report.failed.map fun failure => Json.object 2 [
      ("name", Json.quote failure.name),
      ("error", Json.quote failure.error.message)]))]

end Report

namespace Compiler

def ofConfig (config : Config) : Compiler := ⟨config, none⟩

def readStylesheet (files : FileSystem) (path : Text) : Loaded :=
  (files.read path).mapError fun e =>
    "cannot read stylesheet '".toList ++ path ++ "': ".toList ++ e.message

def loadStylesheet (compiler : Compiler) (files : FileSystem) : Option Loaded × Compiler :=
  match compiler.config.stylesheetPath with
  | none => (none, compiler)
  | some path =>
    let loaded := compiler.stylesheet.getD (readStylesheet files path)
    (some loaded, { compiler with stylesheet := some loaded })

/-- A template and its source: joined with its layouts, and with files spliced in. -/
def source (config : Config) (files : FileSystem) (reference : Text) :
    Except CompileError (Template × Text) := do
  let template ← Source.load files config reference
  let text ← Layout.resolveTemplate files config template
  if config.inlineIncludes then
    let root ← Source.place files config.sourceRoot
    let (result, _) :=
      Include.splice files root config.maxDepth text (Location.path template.directory) []
    return (template, ← result)
  else return (template, text)

/-- The result of work with a compiler: the compiler and the files as they are then, and the log. -/
structure Outcome (α : Type) where
  result : Except CompileError α
  compiler : Compiler
  files : FileSystem
  log : List LogLine

def outputPath (config : Config) (name : Text) : Text :=
  Path.join config.distRoot (name ++ extension)

/-- Compiles one template, with a nonce of its own, and writes its output if asked to. -/
def compile (compiler : Compiler) (files : FileSystem) (nonce reference : Text) (write : Bool) :
    Outcome Compiled :=
  match source compiler.config files reference with
  | .error e => ⟨.error e, compiler, files, []⟩
  | .ok (template, text) =>
    let (stylesheet, compiler) := compiler.loadStylesheet files
    let (html, log) := Render.template nonce template.name stylesheet text
    let compiled : Compiled := ⟨template.name, html⟩
    if write then
      let path := outputPath compiler.config template.name
      let (files, written) := files.writeDeep path (.text html)
      ⟨(written.mapError .io).map fun _ => compiled, compiler, files, log⟩
    else ⟨.ok compiled, compiler, files, log⟩

/-- Compiles and writes templates one after the other, the first with the nonce of number `first`.
A failure is noted and does not keep the others from being compiled. -/
def compileEach (nonces : Nat → Text) : (first : Nat) → Compiler → FileSystem → List Text →
    Outcome Report
  | _, compiler, files, [] => ⟨.ok ⟨[], []⟩, compiler, files, []⟩
  | first, compiler, files, name :: names =>
    let one := compiler.compile files (nonces first) name true
    let rest := compileEach nonces (first + 1) one.compiler one.files names
    match one.result with
    | .ok _ =>
      { rest with
        result := rest.result.map fun r => { r with compiled := name :: r.compiled }
        log := one.log ++ rest.log }
    | .error e =>
      let line : LogLine :=
        ⟨.error, "failed to compile '".toList ++ name ++ "': ".toList ++ e.message⟩
      { rest with
        result := rest.result.map fun r => { r with failed := ⟨name, e⟩ :: r.failed }
        log := one.log ++ line :: rest.log }

def compileAll (compiler : Compiler) (files : FileSystem) (nonces : Nat → Text) : Outcome Report :=
  match Discover.all files compiler.config with
  | .error e => ⟨.error e, compiler, files, []⟩
  | .ok (names, log) =>
    let outcome := compileEach nonces 0 compiler files names
    { outcome with log := log ++ outcome.log }

end Compiler

namespace Config

/-- The configuration in a file. Relative paths in it begin at the directory of the file. -/
def ofFile (files : FileSystem) (path : Text) : Except CompileError Config := do
  let text ← (files.read path).mapError .io
  let config ← (ofJson text).mapError .config
  match Path.parent? path with
  | none => return config
  | some base => return { config with
      sourceRoot := Path.join base config.sourceRoot
      distRoot := Path.join base config.distRoot
      stylesheetPath := config.stylesheetPath.map (Path.join base) }

end Config
end MailTemplate
