/-
# Descriptions for people

The texts under which an exchange, a session, a dialer and the settings show
themselves in a log. Text stands in quotes, with the marks and control
characters in it escaped.

Key definitions: `Describe.quoted`, `Describe.fieldValue`,
`Exchange.describe`, `Session.describe`, `Dialer.describe`,
`Settings.describe`.
-/
import Http1Client.Client
import Http1Client.Dialer

namespace Http1Client
namespace Describe

/-- `true` or `false`. -/
def bool (b : Bool) : String := if b then "true" else "false"

/-- A structure with the fields it shows and, at their end, maybe others. -/
def record (name : String) (fields : List (String × String)) (more : Bool) : String :=
  let shown := fields.map fun f => f.1 ++ ": " ++ f.2
  name ++ " \x7b " ++ ", ".intercalate (shown ++ if more then [".."] else []) ++ " \x7d"

/-- One character of a quoted text. -/
def escaped (c : Char) : String :=
  if c = '\t' then "\\t"
  else if c = '\r' then "\\r"
  else if c = '\n' then "\\n"
  else if c = '\x00' then "\\0"
  else if c = '"' then "\\\""
  else if c = '\\' then "\\\\"
  else if c.toNat < 32 ∨ c.toNat = 127 then
    "\\u\x7b" ++ String.ofList (Nat.toDigits 16 c.toNat) ++ "\x7d"
  else String.singleton c

/-- A text in quotes. -/
def quoted (s : String) : String := "\"" ++ String.join (s.toList.map escaped) ++ "\""

/-- Two hexadecimal digits, in lower case. -/
def hexByte (b : UInt8) : String :=
  String.ofList ((if b < 16 then ['0'] else []) ++ Nat.toDigits 16 b.toNat)

/-- One byte of a field value: a quote and what is not printable are escaped. -/
def valueByte (b : UInt8) : String :=
  if b = 34 then "\\\""
  else if Bytes.isPrintable b then String.singleton (Char.ofNat b.toNat)
  else "\\x" ++ hexByte b

/-- A field value in quotes. -/
def fieldValue (v : FieldValue) : String := "\"" ++ String.join (v.bytes.map valueByte) ++ "\""

/-- A value that may be missing. -/
def optional {α : Type} (f : α → String) : Option α → String
  | none => "None"
  | some a => "Some(" ++ f a ++ ")"

/-- A header section. -/
def fields (f : Fields) : String :=
  "\x7b" ++ ", ".intercalate (f.toList.map fun x =>
    quoted (Bytes.toText x.1.bytes) ++ ": " ++ fieldValue x.2) ++ "\x7d"

end Describe

open Describe

/-- A response, by its status line and its fields. -/
def Response.describe (r : Response) : String :=
  record "Response" [("status", optional (fun s => toString s.code) r.status),
    ("status_message", quoted r.reason), ("version", r.version.text),
    ("headers", Describe.fields r.fields)] false

/-- An exchange, by its stage, its connection and its response. -/
def Exchange.describe (e : Exchange) : String :=
  record "HttpExchange" [("state", e.stage.text), ("connected", bool e.connected),
    ("keep_alive", bool e.keepAlive), ("response", e.response.describe)] true

/-- A one-shot, by whether it has fired. -/
def OneShot.describe {α : Type} (o : OneShot α) : String :=
  record "CompletionSlot" [("fired", bool o.isFired)] false

/-- A session, by whether it is cancelled and has reported. -/
def Session.describe (s : Session) : String :=
  record "ExchangeHandle" [("cancelled", bool s.exchange.cancelled),
    ("completion", s.completion.describe)] true

/-- A dialer, by whether its connections are encrypted. -/
def Dialer.describe (d : Dialer) : String :=
  record "TransportConnector" [("tls", bool d.isTls)] false

/-- Settings, each of them. -/
def Settings.describe (s : Settings) : String :=
  record "ClientConfig" [("ca_certificate", optional Bytes.numbers s.trusted),
    ("client_certificate",
      optional (fun p => "(" ++ p.1.numbers ++ ", " ++ p.2.numbers ++ ")") s.identity),
    ("read_buffer_size", toString s.readBuffer), ("write_buffer_size", toString s.writeBuffer),
    ("chunk_size", toString s.segment), ("max_chunk_size", toString s.chunkLimit)] false

end Http1Client
