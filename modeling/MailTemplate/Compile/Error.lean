import MailTemplate.Files.FileSystem
import MailTemplate.Json.Scan

/-! Why a template cannot be compiled, or a configuration cannot be read. -/

namespace MailTemplate

inductive CompileError where
  | notFound (name : Text)
  | pathEscape (location root : Location)
  | notAFile (location : Location)
  | circular (name : Text)
  | depthExceeded (name : Text) (max : Nat)
  | config (fault : JsonFault)
  | io (error : FileError)
  deriving Repr, DecidableEq

def CompileError.message : CompileError → Text
  | notFound name => "template not found: ".toList ++ name
  | pathEscape location root =>
    "path '".toList ++ location.path ++ "' escapes source root '".toList ++ root.path ++ ['\'']
  | notAFile location => "not a regular file: ".toList ++ location.path
  | circular name => "circular reference to '".toList ++ name ++ ['\'']
  | depthExceeded name max =>
    "nesting deeper than ".toList ++ Text.ofNat max ++ " levels while resolving '".toList ++ name ++
      ['\'']
  | config fault => "invalid configuration: ".toList ++ match fault with
    | .malformed => "malformed JSON".toList
    | .unfit => "unfit value".toList
    | .incomplete => "unexpected end".toList
  | io error => "I/O error: ".toList ++ error.message

end MailTemplate
