import YulToolchain.Ast.Print
import YulToolchain.Text.Hex

/-!
# Objects

Named code with the objects and data attached to it.

A bare block is an object too. It goes by the name `object` and has nothing
attached.

## Main definitions

* `Object`, `Attachment`: The tree of objects.
* `Object.ofCode`: The object a bare block stands for.
* `Object.print`: An object as source text.
-/

namespace YulToolchain

mutual

/-- Named code with attachments. -/
structure Object where
  /-- The name. -/
  name : String
  /-- The code. -/
  code : Block
  /-- What is attached, in order. -/
  attachments : List Attachment

/-- What can be attached to an object. -/
inductive Attachment where
  /-- A nested object. -/
  | object (o : Object)
  /-- Named bytes. -/
  | data (name : String) (bytes : List UInt8)

end

namespace Object

/-- The object that a bare block stands for. -/
def ofCode (code : Block) : Object := ⟨"object", code, []⟩

end Object

mutual

/-- An object as source text. -/
def Object.print : Object → String
  | ⟨name, code, attachments⟩ =>
    "object \"" ++ name ++ "\" \x7b code " ++ code.print ++ Attachment.printSeq attachments
      ++ " \x7d"

/-- An attachment as source text. -/
def Attachment.print : Attachment → String
  | .object o => o.print
  | .data name bytes => "data \"" ++ name ++ "\" hex\"" ++ Hex.encode bytes ++ "\""

/-- Attachments as source text, with a blank before each. -/
def Attachment.printSeq : List Attachment → String
  | [] => ""
  | a :: rest => " " ++ a.print ++ Attachment.printSeq rest

end

end YulToolchain
