/-
Calls of a service through a client.

The client makes request messages of what it is given and hands them to a
transport; what the transport returns, as a message, as properties or as
bytes, it makes into response messages. A streaming side is a run of messages
in place of one.
-/
import ProtoBind.Message.Create

namespace ProtoBind.Message

/-- A call as the transport sees it. -/
structure Call where
  method : ClientMethod
  request : Value
  metadata : Value

/-- The calls that reached the transport, and what the caller gets. -/
structure Exchange where
  calls : List Call
  result : Except Fault Value

namespace Library

/-- One request message. -/
def request (lib : Library) (type : Option String) (v : Value) : Except Fault Value :=
  match type with
  | some t => lib.create t v
  | none => .error (.value .noAttribute)

/-- One response message. -/
def response (lib : Library) (type : Option String) (v : Value) : Except Fault Value :=
  match v, type with
  | .message _ _ _ _, _ => .ok v
  | _, none => .error (.value .noAttribute)
  | .bytes bs, some t => lib.ofBytes t bs
  | v, some t => lib.create t v

/-- One message, or as many as a value runs through when the side streams. -/
def oneOrMany (stream : Bool) (f : Value → Except Fault Value) (v : Value) : Except Fault Value := do
  if stream then return .list (← (← itemsOf v).mapM f) else f v

/-- Calls a method over a transport that answers with `answer`. -/
def call (lib : Library) (m : ClientMethod) (given metadata answer : Value) : Exchange :=
  match oneOrMany m.requestStream (lib.request m.request) given with
  | .error e => ⟨[], .error e⟩
  | .ok sent => ⟨[⟨m, sent, metadata⟩], oneOrMany m.responseStream (lib.response m.response) answer⟩

end Library
end ProtoBind.Message
