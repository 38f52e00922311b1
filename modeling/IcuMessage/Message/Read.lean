/-
Reading messages and their parts from JSON text. Records are read from the
text as it comes; an element or a format is read as a whole before it is
decoded.
-/
import IcuMessage.Print
import IcuMessage.Message.Nodes
import IcuMessage.Json.Reader

namespace IcuMessage

open Json

namespace ArgumentId

def reader : Reader ArgumentId :=
  .whole decode

def read (source : String) : Except Error ArgumentId :=
  reader.readAll source.toList

end ArgumentId

namespace Format

def reader : Reader Format := fun room =>
  Reader.tagged (Node.formatOver (Element.decode room)) room

def read (source : String) : Except Error Format :=
  reader.readAll source.toList

end Format

namespace Element

def reader : Reader Element := fun room =>
  Reader.tagged (Node.element (.tagged (Node.formatOver (Element.decode room)))) room

def read (source : String) : Except Error Element :=
  reader.readAll source.toList

/-- An argument by itself, without the tag it has among elements. -/
def argumentReader : Reader Element :=
  .record (Node.argument ArgumentId.reader (.nullable Format.reader))

def readArgument (source : String) : Except Error Element :=
  argumentReader.readAll source.toList

end Element

namespace Message

def reader : Reader Message :=
  .record (Node.message (.list Element.reader))

def read (source : String) : Except Error Message :=
  reader.readAll source.toList

/-- The message of a JSON text in message syntax. -/
def printSource (layout : Layout) (source : String) : Except Error String :=
  (read source).map (text layout)

end Message

namespace Branch

def reader : Reader Branch :=
  .record (Node.branch .string Message.reader)

def read (source : String) : Except Error Branch :=
  reader.readAll source.toList

end Branch

end IcuMessage
