import SharedSequence.Json.Element
import SharedSequence.ListView
import SharedSequence.SequenceMap

namespace SharedSequence

/-- Values by name; the latest value of a name comes first. -/
abbrev Registers (β : Type) := List (String × β)

/-- Registers that hold sequences and maps by name, and the store that their nodes live in. -/
structure Session (α : Type) where
  store : Store := {}
  sequences : Registers (Sequence α) := []
  maps : Registers (SequenceMap α α) := []

inductive Failure where
  | unset (register : String)
  | rejected (error : SequenceError)
  | faulted (fault : IndexFault)
  | undecodable (error : DecodeError)

/-- Commands work on a session, which stays as it is where they fail. -/
abbrev SessionM (α : Type) := ExceptT Failure (StateM (Session α))

namespace Session

variable {α β : Type}

def allocating (computation : StoreM β) : SessionM α β :=
  modifyGet fun ⟨store, sequences, maps⟩ =>
    let (result, store) := computation.run store
    (result, ⟨store, sequences, maps⟩)

def checked : Except SequenceError β → SessionM α β
  | .ok result => return result
  | .error error => throw (.rejected error)

def building (computation? : Except SequenceError (StoreM β)) : SessionM α β := do
  allocating (← checked computation?)

def decoding (decoder : ExceptT DecodeError StoreM β) : SessionM α β := do
  match ← allocating decoder.run with
  | .ok result => return result
  | .error error => throw (.undecodable error)

def readSequence (register : String) : SessionM α (Sequence α) := do
  match (← get).sequences.lookup register with
  | some s => return s
  | none => throw (.unset register)

/-- The sequences in several registers; the first that is not set fails. -/
def readSequences : List String → SessionM α (List (Sequence α))
  | [] => return []
  | register :: rest => do
    let s ← readSequence register
    return s :: (← readSequences rest)

def readMap (register : String) : SessionM α (SequenceMap α α) := do
  match (← get).maps.lookup register with
  | some map => return map
  | none => throw (.unset register)

def writeSequence (register : String) (s : Sequence α) : SessionM α Unit :=
  modify fun session => { session with sequences := (register, s) :: session.sequences }

def writeMap (register : String) (map : SequenceMap α α) : SessionM α Unit :=
  modify fun session => { session with maps := (register, map) :: session.maps }

end Session

end SharedSequence
