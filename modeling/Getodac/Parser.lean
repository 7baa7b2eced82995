import Getodac.Lib.Tape
import Getodac.Http
/-!
# The parser and its callbacks

`http_parser` is not part of the repository: it is a parameter. What is assumed
of it is that it follows the tape of a message (`Tape.Follows`): it can be cut at
any byte and reports the parts of the request line, of each header line and of
the body that a call brings.

The callbacks are those that `BasicHttpSession` registers.
-/

namespace Getodac

/-- What the parser reports in parts. `parser->method` is set before the URL. -/
inductive Kind where
  | url (method : Bytes)
  | headerField
  | headerValue
  | body
deriving DecidableEq, Repr

inductive Callback where
  | messageBegin
  | data (kind : Kind) (piece : Bytes)
  /-- With what `http_should_keep_alive` answers. -/
  | headersComplete (keepAlive : Bool)
  | messageComplete
deriving DecidableEq, Repr

/-- `http_parser_init`, `http_parser_execute`, and the state that is left where an exception
goes through `http_parser_execute` with this many callbacks still to be made. -/
structure HttpParser extends Tape.Machine UInt8 Callback where
  thrown : State → Bytes → Nat → State

/-- `http_parser_data`. -/
structure Data where
  req : Request := {}
  headerField : Bytes := []

namespace Data

/-- `headerValue`. An insertion moves the name out of `header_field`. -/
def headerValue (d : Data) (piece : Bytes) : Data :=
  { req := { d.req with fields := d.req.fields.set d.headerField piece },
    headerField := if (d.req.fields.find d.headerField).isSome then d.headerField else [] }

/-- The callbacks, from `messageBegin` to `messageComplete`. -/
def call (d : Data) : Callback → Data × Option Exc
  | .messageBegin => ({ d with req := { d.req with state := .ProcessingUrl } }, none)
  | .data (.url method) piece =>
    ({ d with req := { d.req with url := piece, method := method, state := .ProcessingHeader } }, none)
  | .data .headerField piece => ({ d with headerField := piece }, none)
  | .data .headerValue piece => (d.headerValue piece, none)
  | .headersComplete keepAlive =>
    ({ d with req := { d.req with state := .HeadersCompleted, keepAlive := keepAlive } }, none)
  | .data .body piece => ({ d with req := (d.req.appendBody piece).1 }, (d.req.appendBody piece).2)
  | .messageComplete => ({ d with req := { d.req with state := .Completed } }, none)

/-- The callbacks of one `http_parser_execute`, up to the first that throws. With an exception
comes the number of those that are then not made. -/
def callAll (d : Data) : List Callback → Data × Option (Exc × Nat)
  | [] => (d, none)
  | c :: cs =>
    match d.call c with
    | (d', none) => d'.callAll cs
    | (d', some e) => (d', some (e, cs.length))

theorem callAll_append {d d' : Data} {a : List Callback} (h : d.callAll a = (d', none)) (b : List Callback) :
    d.callAll (a ++ b) = d'.callAll b := by
  induction a generalizing d with
  | nil => cases h; rfl
  | cons c cs ih =>
    simp only [List.cons_append, callAll] at h ⊢
    split at h
    · exact ih h
    · cases h

end Data

/-! ## Request heads -/

/-- Bytes that may stand inside a line. -/
def InLine (bs : Bytes) : Prop := ∀ b ∈ bs, b ≠ 13 ∧ b ≠ 10

instance (bs : Bytes) : Decidable (InLine bs) := inferInstanceAs (Decidable (∀ b ∈ bs, b ≠ 13 ∧ b ≠ 10))

/-- A header line `name: value`, with any blanks before the value. -/
structure Field where
  name : Bytes
  blanks : Bytes
  value : Bytes
  name_ne : name ≠ []
  name_ok : InLine name
  name_colon : 58 ∉ name
  blanks_ok : ∀ b ∈ blanks, b = 32 ∨ b = 9
  value_ok : InLine value
  value_start : ∀ b ∈ value.head?, b ≠ 32 ∧ b ≠ 9

/-- A request head: a request line, header lines and an empty line. -/
structure Head where
  method : Bytes
  target : Bytes
  fields : List Field
  method_ne : method ≠ []
  method_ok : InLine method
  method_word : 32 ∉ method
  target_ne : target ≠ []
  target_ok : InLine target
  target_word : 32 ∉ target

def Field.bytes (f : Field) : Bytes := f.name ++ 58 :: f.blanks ++ f.value ++ crlf

def Head.bytes (h : Head) : Bytes :=
  h.method ++ 32 :: h.target ++ Getodac.bytes " HTTP/1.1\r\n" ++ h.fields.flatMap Field.bytes ++ crlf

abbrev Token := Tape.Token UInt8 Kind Callback

namespace Token

def skip (bs : Bytes) : List Token := bs.map fun b => { byte := b }

/-- The bytes of a run. -/
def elem (k : Kind) (bs : Bytes) : List Token := bs.map fun b => { byte := b, run := some k }

/-- Events reported at the first byte. -/
def first (cs : List Callback) : List Token → List Token
  | [] => []
  | t :: ts => { t with before := cs } :: ts

/-- Events reported after the last byte. -/
def last (cs : List Callback) : List Token → List Token
  | [] => []
  | [t] => [{ t with after := cs }]
  | t :: ts => t :: last cs ts

end Token

open Token

/-- Header lines and the CR of the empty line after them. The parser notices that a value is
empty, and reports it, at the first byte of the next line. -/
def openLines (pending : List Callback) : List Field → List Token
  | [] => first pending (skip [13])
  | f :: fs =>
    first pending (elem .headerField f.name) ++ skip (58 :: f.blanks) ++ elem .headerValue f.value ++ skip crlf ++
    openLines (if f.value = [] then [.data .headerValue []] else []) fs

/-- The LF of an empty line, at which `done` happens. -/
def lineFeed (done : List Callback) : Token := { byte := 10, after := done }

/-- The request line. -/
def Head.lineTape (h : Head) : List Token :=
  first [.messageBegin] (skip h.method) ++ skip [32] ++ elem (.url h.method) h.target ++ skip (Getodac.bytes " HTTP/1.1\r\n")

/-- The head without its last byte. -/
def Head.openTape (h : Head) : List Token := h.lineTape ++ openLines [] h.fields

/-- The head, at whose end `done` happens. -/
def Head.tape (h : Head) (done : List Callback) : List Token := h.openTape ++ [lineFeed done]

/-- What is at the end of a head: `headersComplete`, and `messageComplete` if there is no body. -/
def headDone (keepAlive hasBody : Bool) : List Callback :=
  .headersComplete keepAlive :: if hasBody then [] else [.messageComplete]

/-! ## Bodies -/

/-- A chunk, with the line that has its size. -/
structure Chunk where
  line : Bytes
  data : Bytes
  line_ok : InLine line
  data_ne : data ≠ []

/-- A body, of known length or in chunks. After the chunks come a line with size 0 and header lines. -/
inductive Body where
  | identity (data : Bytes) (ne : data ≠ [])
  | chunked (chunks : List Chunk) (line : Bytes) (ok : InLine line) (trailers : List Field)

def Chunk.tape (c : Chunk) : List Token := skip (c.line ++ crlf) ++ elem .body c.data ++ skip crlf

def Body.tape : Body → List Token
  | .identity data _ => last [.messageComplete] (elem .body data)
  | .chunked chunks line _ trailers =>
    chunks.flatMap Chunk.tape ++ skip (line ++ crlf) ++ openLines [] trailers ++ [lineFeed [.messageComplete]]

/-! ## What is assumed of the parser -/

/-- Which parts the parser reports even if they have no bytes: `tail` for those of a head. -/
def tails (tail : Bool) : Kind → Bool
  | .body => false
  | _ => tail

abbrev HttpParser.Follows (P : HttpParser) (tail : Bool) (tape : List Token) : Prop :=
  Tape.Follows Callback.data (tails tail) P.toMachine tape

/-- The parser that knows these tapes. -/
def replay (tail : Bool) (tapes : List (List Token)) : HttpParser where
  toMachine := Tape.replay Callback.data (tails tail) tapes
  thrown st _ _ := st

theorem replay_follows (tail : Bool) (t : List Token) (ts : List (List Token)) :
    (replay tail (t :: ts)).Follows tail t :=
  Tape.replay_follows _ _ t ts

end Getodac
