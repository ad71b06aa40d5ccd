import PlainScript.Source.LineIndex
import PlainScript.SourceMap.Vlq
import PlainScript.Text.JsonString

/-!
# Source maps

A source map relates positions of a generated file to positions of one source file. Its text follows
version 3 of the format: lines are separated by `;` and segments by `,`; a segment has four numbers,
each of which is a difference to the one before it. The generated column starts again at zero on
each line, the others run through the whole map.
-/

namespace PlainScript

structure Mapping where
  generated : LineColumn
  source : LineColumn
deriving DecidableEq, Repr

structure SourceMap where
  file : String
  source : String
  mappings : String
deriving DecidableEq, Repr

namespace SourceMap

/-- Where the last segment stood. -/
structure Previous where
  line : Nat := 0
  generatedColumn : Nat := 0
  sourceLine : Nat := 0
  sourceColumn : Nat := 0
  isFirstInLine : Bool := true
deriving DecidableEq, Repr

def difference (new old : Nat) : Int := (new : Int) - old

def segment (previous : Previous) (m : Mapping) : String × Previous :=
  let lines := m.generated.line - previous.line
  let isFirst := previous.isFirstInLine || 0 < lines
  let column := if 0 < lines then 0 else previous.generatedColumn
  let text := String.ofList (List.replicate lines ';') ++ (if isFirst then "" else ",") ++
    Vlq.encode (difference m.generated.column column) ++ Vlq.encode 0 ++
    Vlq.encode (difference m.source.line previous.sourceLine) ++
    Vlq.encode (difference m.source.column previous.sourceColumn)
  (text, ⟨max previous.line m.generated.line, m.generated.column, m.source.line, m.source.column,
    false⟩)

def segments : Previous → List Mapping → String
  | _, [] => ""
  | previous, m :: rest =>
    let (text, next) := segment previous m
    text ++ segments next rest

/-- The text of a list of mappings, which are first put in the order of their generated positions;
mappings of the same position stay in order. -/
def encode (mappings : List Mapping) : String :=
  segments {} (mappings.mergeSort fun a b => a.generated.ble b.generated)

/-- The mappings that relate each of the first `n` lines to the line of the same number. -/
def identityLines (n : Nat) : List Mapping :=
  (List.range n).map fun line => ⟨⟨line, 0⟩, ⟨line, 0⟩⟩

def ofMappings (mappings : List Mapping) (file source : String) : SourceMap :=
  { file, source, mappings := encode mappings }

def toJson (map : SourceMap) : String :=
  "\x7b\"version\":3,\"file\":" ++ JsonString.quote map.file ++
    ",\"sources\":[" ++ JsonString.quote map.source ++ "],\"names\":[],\"mappings\":" ++
    JsonString.quote map.mappings ++ "\x7d"

end SourceMap

end PlainScript
