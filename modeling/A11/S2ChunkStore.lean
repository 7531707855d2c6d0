import A11.S2Records
import A11.Tasks

/-! The S2 chunk store: its backend, and how an instance synchronises with the two streams. -/
namespace A11.S2ChunkStore

/-! ### The backend -/

inductive Request
  | ensure (state : Bool)
  | tail (state : Bool)
  | read (start count : ℕ) (state : Bool)
  | append (records : List Record) (expectedTail : ℕ) (state : Bool)

@[reducible] def Request.Value : Request → Type
  | .ensure _ => Unit
  | .tail _ => ℕ
  | .read _ _ _ => List (ℕ × Record)
  | .append _ _ _ => ℕ

inductive Exn
  | conflict
  | status (status : Status)
  | cancelled
  deriving DecidableEq

abbrev Response (r : Request) : Type := Except Exn r.Value

abbrev M := Task Request Response Replica Exn

def ask (r : Request) : M r.Value := do
  let response ← Task.request r
  Task.lift response

namespace Backend

def ensure (state : Bool) : M Unit := ask (.ensure state)
def tail (state : Bool) : M ℕ := ask (.tail state)
def read (start count : ℕ) (state : Bool) : M (List (ℕ × Record)) := ask (.read start count state)
def append (records : List Record) (expectedTail : ℕ) (state : Bool) : M ℕ :=
  ask (.append records expectedTail state)

end Backend

def raise {α : Type} (result : StatusOr α) : M α := Task.lift (result.mapError .status)

def changeReplica {α : Type} (f : Replica → StatusOr α × Replica) : M α :=
  Task.change fun r => ((f r).1.mapError .status,(f r).2)

/-- The records of the two streams. -/
structure Logs where
  data : List Record := []
  state : List Record := []

def Logs.log (w : Logs) (state : Bool) : List Record := if state then w.state else w.data

def Logs.extend (w : Logs) (records : List Record) (state : Bool) : Logs :=
  if state then { w with state := w.state++records } else { w with data := w.data++records }

/-- Consecutive records with their positions. -/
def placed (start : ℕ) (records : List Record) : List (ℕ × Record) :=
  (List.range' start records.length).zip records

def page (log : List Record) (start count : ℕ) : List (ℕ × Record) :=
  placed start ((log.drop start).take count)

/-- What a backend may answer: the result with at most so many records, or an exception
of an append that has or has not taken effect. -/
inductive Choice
  | serve (count : ℕ)
  | fail (exn : Exn) (effect : Bool)

def respond (w : Logs) : (r : Request) → Choice → Response r × Logs
  | .ensure _, .serve _ => (.ok (),w)
  | .tail state, .serve _ => (.ok (w.log state).length,w)
  | .read start count state, .serve n => (.ok (page (w.log state) start (min count n)),w)
  | .append records expectedTail state, .serve _ =>
    if (w.log state).length = expectedTail then
      (.ok (expectedTail+records.length),w.extend records state)
    else (.error .conflict,w)
  | .append records expectedTail state, .fail exn true =>
    if (w.log state).length = expectedTail then (.error exn,w.extend records state)
    else (.error exn,w)
  | .append _ _ _, .fail exn false => (.error exn,w)
  | .ensure _, .fail exn _ | .tail _, .fail exn _ | .read _ _ _, .fail exn _ => (.error exn,w)

/-- A backend that never fails and reads at most `count` records at once. -/
def healthy (count : ℕ) (r : Request) (w : Logs) : Response r × Logs := respond w r (.serve count)

/-- A backend that answers as told. When nothing more is said the call is cancelled. -/
def scripted (r : Request) (w : Logs × List Choice) : Response r × (Logs × List Choice) :=
  match w.2 with
  | [] => (.error .cancelled,w)
  | choice::script => ((respond w.1 r choice).1,((respond w.1 r choice).2,script))

/-! ### Synchronisation -/

variable (cfg : Config)

def Replica.ensured (r : Replica) (state : Bool) : Bool :=
  if state then r.stateEnsured else r.dataEnsured

def Replica.setEnsured (r : Replica) (state : Bool) : Replica :=
  if state then { r with stateEnsured := true } else { r with dataEnsured := true }

def ensure (state : Bool) : M Unit := do
  let r ← Task.own
  if r.ensured state then pure ()
  else do
    Backend.ensure state
    Task.update fun r => r.setEnsured state

/-- Apply the records of a page that stands at `current`. -/
def applyPage (state : Bool) : List (ℕ × Record) → ℕ → Replica → StatusOr ℕ × Replica
  | [], current, r => (.ok current,r)
  | (physical,record)::rest, current, r =>
    if physical ≠ current then
      (.error (.dataLoss ("Expected S2 record " ++ toString current ++ ", got " ++
        toString physical ++ ".")),r)
    else match applyRecord cfg record physical state r with
      | (.error status,r') => (.error status,r')
      | (.ok _,r') => applyPage state rest (current+1) r'

def missingRecord (position : ℕ) : Status :=
  .dataLoss ("S2 record " ++ toString position ++ " is missing.")

/-- Read up to the tail. A page has at least one record, so what is left bounds the
number of pages. -/
def readLoop (state : Bool) (tail : ℕ) : ℕ → ℕ → M ℕ
  | 0, current => pure current
  | fuel+1, current =>
    if tail ≤ current then pure current
    else do
      let records ← Backend.read current (min 1000 (tail-current)) state
      if records.isEmpty then raise (.error (missingRecord current))
      else do
        let current ← changeReplica (applyPage cfg state records current)
        readLoop state tail fuel current

def syncStream (state : Bool) : M Unit := do
  ensure state
  let r ← Task.own
  let current := r.tail state
  let tail ← Backend.tail state
  if tail < current then
    raise (.error (.dataLoss "The S2 chunk-store stream was trimmed or replaced."))
  else do
    let current ← readLoop cfg state tail (tail-current) current
    Task.update fun r => r.setTail state current

def sync : M Unit := do
  syncStream cfg false
  syncStream cfg true

/-- Two fragments, stored one after the other. -/
def exampleLogs : Logs where
  data := [
    ⟨[1],[(.format,chunkFormat),(.transaction,[97]),(.chunk,[])]⟩,
    ⟨[2],[(.format,chunkFormat),(.transaction,[98]),(.chunk,[])]⟩]

end A11.S2ChunkStore
