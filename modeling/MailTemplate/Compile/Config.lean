import MailTemplate.Json.Skip

/-! The configuration of a compiler, and how it is read from JSON: an object of named fields, in any
order and with others between them, or a list of the fields in their order. Fields that are not
given have their default. -/

namespace MailTemplate

/-- What a compiler works on: where sources are and output goes, a stylesheet for all templates,
whether files are spliced in, and how deep layouts and spliced files may nest. -/
structure Config where
  sourceRoot : Text
  distRoot : Text
  stylesheetPath : Option Text
  inlineIncludes : Bool
  maxDepth : Nat
  deriving Repr, DecidableEq

inductive ConfigField where
  | sourceRoot
  | distRoot
  | stylesheetPath
  | inlineIncludes
  | maxDepth
  deriving Repr, DecidableEq

namespace ConfigField

def all : List ConfigField := [sourceRoot, distRoot, stylesheetPath, inlineIncludes, maxDepth]

def key : ConfigField → Text
  | sourceRoot => "source_root".toList
  | distRoot => "dist_root".toList
  | stylesheetPath => "stylesheet_path".toList
  | inlineIncludes => "inline_includes".toList
  | maxDepth => "max_depth".toList

def ofKey? (key : Text) : Option ConfigField := all.find? (·.key == key)

end ConfigField

namespace Config

def ofRoots (sourceRoot distRoot : Text) : Config := ⟨sourceRoot, distRoot, none, true, 32⟩

def standard : Config := ofRoots "templates".toList "dist".toList

open Json (dropBlank expect)

def readPath (source : Text) : Except JsonFault (Text × Text) :=
  match dropBlank source with
  | [] => .error .incomplete
  | '"' :: rest => Json.string rest
  | source => .error (Json.unfit source)

def readPath? (source : Text) : Except JsonFault (Option Text × Text) :=
  match dropBlank source with
  | 'n' :: rest => do return (none, ← expect "ull".toList rest)
  | source => do
    let (path, rest) ← readPath source
    return (some path, rest)

def readBool (source : Text) : Except JsonFault (Bool × Text) :=
  match dropBlank source with
  | [] => .error .incomplete
  | 't' :: rest => do return (true, ← expect "rue".toList rest)
  | 'f' :: rest => do return (false, ← expect "alse".toList rest)
  | source => .error (Json.unfit source)

def readNatural (source : Text) : Except JsonFault (Nat × Text) :=
  match dropBlank source with
  | [] => .error .incomplete
  | c :: rest =>
    if c.isDigit then do
      match ← Json.number true (c :: rest) with
      | (.natural value, rest) => return (value, rest)
      | _ => throw .unfit
    else .error (Json.unfit (c :: rest))

def readField (config : Config) (field : ConfigField) (source : Text) :
    Except JsonFault (Config × Text) := do
  match field with
  | .sourceRoot =>
    let (value, rest) ← readPath source
    return ({ config with sourceRoot := value }, rest)
  | .distRoot =>
    let (value, rest) ← readPath source
    return ({ config with distRoot := value }, rest)
  | .stylesheetPath =>
    let (value, rest) ← readPath? source
    return ({ config with stylesheetPath := value }, rest)
  | .inlineIncludes =>
    let (value, rest) ← readBool source
    return ({ config with inlineIncludes := value }, rest)
  | .maxDepth =>
    let (value, rest) ← readNatural source
    return ({ config with maxDepth := value }, rest)

def readColon (source : Text) : Except JsonFault Text :=
  match dropBlank source with
  | [] => .error .incomplete
  | ':' :: rest => .ok rest
  | _ => .error .malformed

/-- The fields of an object, from after the quote of a key. A known field may be given once; the
value of an unknown one does not matter. -/
def readFields : (fuel : Nat) → Config → (given : List ConfigField) → Text →
    Except JsonFault (Config × Text)
  | 0, _, _, _ => .error .incomplete
  | fuel + 1, config, given, source => do
    let (key, source) ← Json.string source
    let (config, given, source) ← match ConfigField.ofKey? key with
      | none => do pure (config, given, ← Json.skip (← readColon source))
      | some field => do
        if field ∈ given then throw .unfit
        let (config, source) ← config.readField field (← readColon source)
        pure (config, field :: given, source)
    match dropBlank source with
    | [] => throw .incomplete
    | '}' :: rest => return (config, rest)
    | ',' :: rest => match dropBlank rest with
      | [] => throw .incomplete
      | '"' :: rest => readFields fuel config given rest
      | _ => throw .malformed
    | _ => throw .malformed

/-- The fields of a list, from before a value. A list may end after any field, and has no more items
than there are fields. -/
def readItems (config : Config) : List ConfigField → Text → Except JsonFault (Config × Text)
  | [], _ => .error .malformed
  | field :: fields, source => do
    let (config, source) ← config.readField field source
    match dropBlank source with
    | [] => throw .incomplete
    | ']' :: rest => return (config, rest)
    | ',' :: rest => match fields, dropBlank rest with
      | [], _ => throw .malformed
      | _, [] => throw .incomplete
      | _, ']' :: _ => throw .malformed
      | fields, rest => readItems config fields rest
    | _ => throw .malformed

def readValue (source : Text) : Except JsonFault (Config × Text) :=
  match dropBlank source with
  | [] => .error .incomplete
  | '{' :: rest => match dropBlank rest with
    | [] => .error .incomplete
    | '}' :: rest => .ok (standard, rest)
    | '"' :: rest => readFields (rest.length + 1) standard [] rest
    | _ => .error .malformed
  | '[' :: rest => match dropBlank rest with
    | [] => .error .incomplete
    | ']' :: rest => .ok (standard, rest)
    | rest => readItems standard ConfigField.all rest
  | source => .error (Json.unfit source)

/-- The configuration that a text of JSON gives. Nothing may follow it. -/
def ofJson (source : Text) : Except JsonFault Config := do
  let (config, rest) ← readValue source
  if dropBlank rest ≠ [] then throw .malformed
  return config

end Config
end MailTemplate
