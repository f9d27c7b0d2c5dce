import YulToolchain.Object
import YulToolchain.Parser.Statement

/-!
# Reading Objects

The grammar of objects. A source that starts with a brace is a bare block, read
as the object it stands for. Objects nest without a limit of their own.

## Main definitions

* `Parse.object`: Reads an object.
* `parseObject`: Reads a source that is an object or a bare block.
-/

namespace YulToolchain

namespace Parse

/-- Reads a data attachment after its keyword: a name, and a hex string or a
    string. -/
def data : Parse Attachment := do
  let name ← consume .string .expectedDataName
  let next ← current
  if ← accept .hexString then
    match Hex.decode? next.contents.toList with
    | some bytes => return .data name.contents bytes
    | none => complain next .badHexString
  else
    let text ← consume .string .expectedDataLiteral
    match unescape text.contents.toList with
    | .ok bytes => return .data name.contents bytes
    | .error why => throw (.data why)

mutual

/-- Reads an object. -/
def object (d : Dialect) : Nat → Parse Object
  | 0 => do complain (← current) .nestedTooDeep
  | fuel + 1 => do
    let _ ← consume .objectWord .expectedObjectOrBlock
    let name ← consume .string .expectedObjectName
    let _ ← consume .leftBrace .expectedObjectBrace
    let _ ← consume .codeWord .expectedCode
    let code ← block d fuel 0
    return ⟨name.contents, code, ← attachments d fuel⟩

/-- Reads the attachments of an object and its closing brace. -/
def attachments (d : Dialect) : Nat → Parse (List Attachment)
  | 0 => do complain (← current) .nestedTooDeep
  | fuel + 1 => do
    if ← accept .rightBrace then return []
    else if ← check .objectWord then
      let o ← object d fuel
      return .object o :: (← attachments d fuel)
    else if ← accept .dataWord then
      let a ← data
      return a :: (← attachments d fuel)
    else complain (← current) .expectedAttachment

end

end Parse

/-- Reads a source that is an object or a bare block. -/
def parseObject (d : Dialect) (source : String) : Except ParseError Object := do
  let ts := tokens source
  let fuel := Parse.fuelFor ts.length
  let start ← Cursor.ofTokens ts
  let reader : Parse Object := do
    let o ← if ← Parse.check .leftBrace then Object.ofCode <$> Parse.block d fuel 0
      else Parse.object d fuel
    let _ ← Parse.consume .endOfInput .expectedEnd
    return o
  (·.1) <$> reader.run start

end YulToolchain
