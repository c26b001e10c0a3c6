import NestedSet.Config.Decode
import NestedSet.Document.Reader
import NestedSet.Schema

/-!
# Reading a configuration

A configuration is a JSON text that decodes and whose mapping is valid. A file
that does not exist or is not UTF-8 cannot be read at all.
-/

set_option autoImplicit false

namespace NestedSet

inductive ConfigError where
  /-- The file is missing or holds no text. -/
  | unreadable
  /-- The text is not one JSON document. -/
  | malformed
  | undecodable (e : Decode.Problem)
  | invalidSchema (e : SchemaError)

namespace Config

def ofText (text : String) : Except ConfigError Config :=
  match Document.parse text with
  | none => .error .malformed
  | some document =>
    match Decode.config document with
    | .error e => .error (.undecodable e)
    | .ok config =>
      match config.mapping.validate with
      | .error e => .error (.invalidSchema e)
      | .ok _ => .ok config

def ofFile : Option ByteArray → Except ConfigError Config
  | none => .error .unreadable
  | some bytes =>
    match String.fromUTF8? bytes with
    | none => .error .unreadable
    | some text => ofText text

end Config

end NestedSet
