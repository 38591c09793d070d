/-
Messages that several holders share.

A store gives every message a place and keeps its present contents. A change
to a message is seen by all messages that hold it, so no message may come to
hold itself.
-/
import ProtoBind.Message.Instance

namespace ProtoBind.Message

section
variable {m : Type → Type} [Monad m] (f : Instance → m Value)

mutual

/-- Rebuilds a value from the inside: `f` gives what stands for each message. -/
def rebuild : Value → m Value
  | .list items => do return .list (← rebuildAll items)
  | .dict entries => do return .dict (← rebuildEntries entries)
  | .message home type attrs choices => do
    f ⟨home, type, ← rebuildAttrs attrs, ← rebuildChoices choices⟩
  | v => return v

def rebuildAll : List Value → m (List Value)
  | [] => return []
  | v :: vs => do return (← rebuild v) :: (← rebuildAll vs)

def rebuildEntries : List (Value × Value) → m (List (Value × Value))
  | [] => return []
  | (k, v) :: rest => do return (k, ← rebuild v) :: (← rebuildEntries rest)

def rebuildAttrs : List (String × Value) → m (List (String × Value))
  | [] => return []
  | (a, v) :: rest => do return (a, ← rebuild v) :: (← rebuildAttrs rest)

def rebuildChoices : List (String × String × Value) → m (List (String × String × Value))
  | [] => return []
  | (g, a, v) :: rest => do return (g, a, ← rebuild v) :: (← rebuildChoices rest)

end

end

/-- The contents of the message at each place. -/
structure Store where
  contents : List Value
  deriving Repr, Inhabited

namespace Store

def empty : Store := ⟨[]⟩

def get? (s : Store) (place : Nat) : Option Value := s.contents[place]?

/-- Gives a message without a place the next one. -/
def settleOne (m : Instance) : StateM Store Value := do
  match m.home with
  | some _ => return m.value
  | none =>
    let s ← get
    let v := { m with home := some s.contents.length }.value
    set (Store.mk (s.contents ++ [v]))
    return v

/-- Gives every message in a value a place. -/
def settle (v : Value) : StateM Store Value := rebuild settleOne v

/-- A value with other contents for the message at a place. -/
def replaceIn (place : Nat) (contents v : Value) : Value :=
  Id.run (rebuild (fun m => return if m.home = some place then contents else m.value) v)

/-- The value holds the message at a place. -/
def holds (place : Nat) (v : Value) : Bool :=
  let see (m : Instance) : StateM Bool Value := do
    if m.home = some place then set true
    return m.value
  (Id.run ((rebuild see v).run false)).2

/-- The message holds itself. -/
def isCyclic (place : Nat) (m : Instance) : Bool :=
  m.attrs.any (fun a => holds place a.2) || m.choices.any (fun c => holds place c.2.2)

/-- Gives the message at a place other contents, for all that hold it; none if it would hold
itself. -/
def update? (s : Store) (place : Nat) (m : Instance) : Option Store :=
  if isCyclic place m then none
  else
    let (v, s) := Id.run ((settle { m with home := some place }.value).run s)
    some ⟨(s.contents.map (replaceIn place v))⟩

end Store
end ProtoBind.Message
