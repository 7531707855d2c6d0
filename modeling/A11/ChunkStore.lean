import A11.DataTypes

/-! The operations every chunk store answers, executed one after another. A call that
has to wait is left alone until its deadline passes. -/
namespace A11

inductive Op
  | putMany (fragments : List NodeFragment)
  | clearData (seq : UInt32)
  | closeWritesWithStatus (status : Status) (returnStatusIfAlreadyClosed : Bool)
  | get (seq : UInt32)
  | getByArrivalOrder (arrivalOrder : UInt64)
  | getSeqForArrivalOrder (arrivalOrder : UInt64)
  | getFinalSeq
  | size
  | next (limit : ℕ)
  deriving DecidableEq

inductive Answer
  | seqs (seqs : List UInt32)
  | fragment (fragment : NodeFragment)
  | status (status : Status)
  | seq (seq : UInt32)
  | finalSeq (finalSeq : Option UInt32)
  | size (size : ℕ)
  | fragments (fragments : List (Option NodeFragment))
  deriving DecidableEq

structure Reply where
  waited : Bool
  result : StatusOr Answer
  deriving DecidableEq

namespace Reply

def now {α : Type} (wrap : α → Answer) (result : StatusOr α) : Reply := ⟨false,result.map wrap⟩

/-- The deadline passed during the wait: what was collected is returned, and
otherwise the deadline is reported. -/
def expired (message : String) (fragments : List (Option NodeFragment)) : Reply :=
  ⟨true,if fragments = [] then .error (.deadlineExceeded message) else .ok (.fragments fragments)⟩

/-- The same value or the same status code. -/
def SameResult : StatusOr Answer → StatusOr Answer → Prop
  | .ok a, .ok b => a = b
  | .error e, .error e' => e.code = e'.code
  | _, _ => False

def Agrees (r t : Reply) : Prop := r.waited = t.waited ∧ SameResult r.result t.result

theorem SameResult.refl (r : StatusOr Answer) : SameResult r r := by
  cases r <;> rfl

theorem Agrees.refl (r : Reply) : r.Agrees r := ⟨rfl,SameResult.refl _⟩

end Reply

inductive ReadKind
  | sequence | arrivalOrder
  deriving DecidableEq

def getExpired : String := "Chunk store fragment was not available before the deadline"
def nextExpired : String := "Expected seq was not available before the deadline"

/-- A read that found nothing: it waits on an open store and otherwise reports how
the store was closed. -/
def closedRead (status : Option Status) (kind : ReadKind) (value : UInt64) :
    Option (StatusOr NodeFragment) :=
  match status with
  | none => none
  | some status =>
    if status.isOk then
      some (.error (.notFound (match kind with
        | .sequence => "Chunk store closed without seq " ++ toString value
        | .arrivalOrder => "Chunk store closed without arrival order " ++ toString value)))
    else some (.error status)

/-- A single read, which waits until its deadline when it has no answer yet. -/
def readReply : Option (StatusOr NodeFragment) → Reply
  | some result => .now .fragment result
  | none => .expired getExpired []

/-- The MessagePack and status encodings the persistent stores rely on. -/
structure Codec where
  metadataToMsgpack : ChunkMetadata → StatusOr Bytes
  metadataFromMsgpack : Bytes → StatusOr ChunkMetadata
  nodeRefToMsgpack : NodeRef → StatusOr Bytes
  nodeRefFromMsgpack : Bytes → StatusOr NodeRef
  packStatus : Status → StatusOr Bytes
  unpackStatus : Bytes → StatusOr Status

end A11
