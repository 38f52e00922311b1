import IcuMessage.Decimal
import IcuMessage.Message
import IcuMessage.Escape
import IcuMessage.Print
import IcuMessage.Json.StringLiteral
import IcuMessage.Json.Container
import IcuMessage.Json.Read
import IcuMessage.Json.Skip
import IcuMessage.Json.Value
import IcuMessage.Json.Error
import IcuMessage.Json.Number
import IcuMessage.Text.Quoted
import IcuMessage.Decimal.Shortest
import IcuMessage.Json.Decoder
import IcuMessage.Json.Record
import IcuMessage.Json.Tagged
import IcuMessage.Json.Reader
import IcuMessage.Message.Nodes
import IcuMessage.Message.Read
import IcuMessage.Json.Write
import IcuMessage.Message.Write
import IcuMessage.Bundle
import IcuMessage.Config
import IcuMessage.Failure
import IcuMessage.Run
import IcuMessage.Session
import IcuMessage.Arguments
import IcuMessage.CommandLine
import IcuMessage.Main
import IcuMessage.Proofs.EscapedText
import IcuMessage.Proofs.UniqueReading
import IcuMessage.Proofs.Json.Steps
import IcuMessage.Proofs.Json.StringLiterals
import IcuMessage.Proofs.Json.NumberLiterals
import IcuMessage.Proofs.Json.Containers
import IcuMessage.Proofs.Json.Values
import IcuMessage.Proofs.Json.Agreement
import IcuMessage.Proofs.Json.Decoded
import IcuMessage.Proofs.Json.WrittenValues
import IcuMessage.Proofs.Json.Streaming
import IcuMessage.Proofs.Message.Nesting
import IcuMessage.Proofs.Message.Decoding
import IcuMessage.Proofs.Json.Accepted
import IcuMessage.Proofs.Message.RoundTrip
import IcuMessage.Proofs.Message.Wrapping
import IcuMessage.Proofs.Message.Strings
import IcuMessage.Proofs.Skeleton
import IcuMessage.Proofs.Layouts
import IcuMessage.Proofs.Json.MemberOrder
import IcuMessage.Proofs.Json.Parts
import IcuMessage.Proofs.Json.Shapes
import IcuMessage.Proofs.Message.NodeShapes
import IcuMessage.Proofs.Message.ObjectForms
import IcuMessage.Proofs.BundleReading
import IcuMessage.Proofs.BundleOutput
import IcuMessage.Proofs.Message.Damage
import IcuMessage.Proofs.Json.Pieces
import IcuMessage.Proofs.Json.RecordPieces
import IcuMessage.Proofs.BundleText
import IcuMessage.Proofs.Message.Extension
import IcuMessage.Proofs.Message.Preorder
import IcuMessage.Proofs.RunLog
import IcuMessage.Proofs.Message.Tags
import IcuMessage.Proofs.EscapeUnits
import IcuMessage.Proofs.EscapeGrowth
import IcuMessage.Proofs.Message.OptionPlaces
import IcuMessage.Proofs.Message.Spots
import IcuMessage.Proofs.TextSplitting
import IcuMessage.Proofs.Message.SpotValues
import IcuMessage.Proofs.CommandStages
import IcuMessage.Proofs.Json.Surplus
import IcuMessage.Proofs.Json.Texts
import IcuMessage.Proofs.Json.Unreadable
import IcuMessage.Proofs.Json.Numerals
import IcuMessage.Proofs.Json.Contexts
import IcuMessage.Proofs.Message.ArrayForms
import IcuMessage.Proofs.Message.Numbers
import IcuMessage.Proofs.NumberRanges
import IcuMessage.Proofs.ConfigFiles
import IcuMessage.Proofs.ArgumentSpellings
import IcuMessage.Proofs.SessionBuilding
