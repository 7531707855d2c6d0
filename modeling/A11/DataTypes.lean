import A11.FiniteTable

/-! The values that cross a chunk store: statuses, chunks, node references and
fragments, with the checks a fragment has to pass before a store accepts it. -/
namespace A11

/-- `std::string`: arbitrary bytes, with no claim about their encoding. -/
abbrev Bytes := List UInt8

/-- Bytes as they stand in a message. -/
def asciiText (b : Bytes) : String := String.ofList (b.map fun c => Char.ofNat c.toNat)

inductive StatusCode
  | ok | cancelled | unknown | invalidArgument | deadlineExceeded | notFound | alreadyExists
  | permissionDenied | resourceExhausted | failedPrecondition | aborted | outOfRange
  | unimplemented | internal | unavailable | dataLoss | unauthenticated
  deriving DecidableEq

structure Status where
  code : StatusCode
  message : String
  deriving DecidableEq

namespace Status

def okStatus : Status := ⟨.ok,""⟩

def isOk (s : Status) : Bool := s.code == .ok

def cancelled (message : String) : Status := ⟨.cancelled,message⟩
def invalidArgument (message : String) : Status := ⟨.invalidArgument,message⟩
def deadlineExceeded (message : String) : Status := ⟨.deadlineExceeded,message⟩
def notFound (message : String) : Status := ⟨.notFound,message⟩
def alreadyExists (message : String) : Status := ⟨.alreadyExists,message⟩
def resourceExhausted (message : String) : Status := ⟨.resourceExhausted,message⟩
def failedPrecondition (message : String) : Status := ⟨.failedPrecondition,message⟩
def outOfRange (message : String) : Status := ⟨.outOfRange,message⟩
def unimplemented (message : String) : Status := ⟨.unimplemented,message⟩
def unauthenticated (message : String) : Status := ⟨.unauthenticated,message⟩
def unavailable (message : String) : Status := ⟨.unavailable,message⟩
def dataLoss (message : String) : Status := ⟨.dataLoss,message⟩
def aborted (message : String) : Status := ⟨.aborted,message⟩
def internal (message : String) : Status := ⟨.internal,message⟩
def permissionDenied (message : String) : Status := ⟨.permissionDenied,message⟩

end Status

/-- A result that carries either a value or the status of its failure. -/
abbrev StatusOr (α : Type) := Except Status α

section Except

variable {ε α β : Type}

@[simp] theorem ok_bind (a : α) (f : α → Except ε β) : (Except.ok a >>= f) = f a := rfl

@[simp] theorem error_bind (e : ε) (f : α → Except ε β) : (Except.error e >>= f) = .error e := rfl

@[simp] theorem pure_eq_ok (a : α) : (pure a : Except ε α) = .ok a := rfl

end Except

/-- What has arrived of a stream is a part of its first item, or that item and some more. -/
theorem arrived_cases {α : Type} {part future item tail : List α}
    (h : part++future = item++tail) :
    (∃ more ≠ [], part++more = item ∧ future = more++tail) ∨
      ∃ rest, part = item++rest ∧ rest++future = tail := by
  rcases List.append_eq_append_iff.mp h with ⟨more,hitem,hfuture⟩ | ⟨rest,hpart,htail⟩
  · by_cases hmore : more = []
    · exact .inr ⟨[],by simp [hitem,hmore],by simp [hfuture,hmore]⟩
    · exact .inl ⟨more,hmore,hitem.symm,hfuture⟩
  · exact .inr ⟨rest,hpart,htail.symm⟩

theorem StatusOr.bind_eq_ok {α β : Type} {x : StatusOr α} {f : α → StatusOr β} {b : β} :
    (x >>= f) = .ok b ↔ ∃ a, x = .ok a ∧ f a = .ok b := by
  cases x <;> simp

theorem StatusOr.check_bind_eq_ok {β : Type} {x : StatusOr Unit} {f : Unit → StatusOr β} {b : β} :
    (x >>= f) = .ok b ↔ x = .ok () ∧ f () = .ok b := by
  cases x <;> simp

def uint32Range : ℕ := 4294967296
def maxSeq : ℕ := 4294967295

/-! ### Identifiers -/

def isAsciiAlpha (c : UInt8) : Bool := (97 ≤ c && c ≤ 122) || (65 ≤ c && c ≤ 90)

def isNameBoundary (c : UInt8) : Bool := isAsciiAlpha c || (48 ≤ c && c ≤ 57) || c == 95

def isNameMiddle (c : UInt8) : Bool := isNameBoundary c || c == 45 || c == 35

def validateName (name : Bytes) : StatusOr Unit :=
  if name.isEmpty || 255 < name.length then
    .error (.invalidArgument "name must contain between 1 and 255 characters")
  else if !(name.head?.any isNameBoundary) || !(name.getLast?.any isNameBoundary) then
    .error (.invalidArgument
      "name must start and end with an ASCII letter, digit, or underscore")
  else if name.all isNameMiddle then .ok ()
  else .error (.invalidArgument "name contains a character outside [a-zA-Z0-9-_#]")

/-- The first failure of a list of checks, in order. -/
def checkAll {α : Type} (check : α → StatusOr Unit) : List α → StatusOr Unit
  | [] => .ok ()
  | x::xs => do check x; checkAll check xs

theorem checkAll_eq_ok {α : Type} {check : α → StatusOr Unit} {xs : List α} :
    checkAll check xs = .ok () ↔ ∀ x ∈ xs, check x = .ok () := by
  induction xs with
  | nil => simp [checkAll]
  | cons x xs ih => simp [checkAll,StatusOr.check_bind_eq_ok,ih]

/-! ### Payloads -/

/-- A string-keyed hash map. The iteration order of the source is unspecified, so
the entries are listed by increasing key and equality is equality of maps. -/
structure ByteMap where
  entries : List (Bytes × Bytes)
  sorted : entries.Pairwise fun a b => a.1 < b.1
  deriving DecidableEq

def ByteMap.empty : ByteMap := ⟨[],List.Pairwise.nil⟩

structure ChunkMetadata where
  mimetype : Bytes
  /-- `absl::Time`, as a count of its ticks. -/
  timestamp : Option ℤ
  attributes : ByteMap
  deriving DecidableEq

def ChunkMetadata.validate (m : ChunkMetadata) : StatusOr Unit :=
  checkAll (fun e => validateName e.1) m.attributes.entries

/-- An in-process value; two chunks carry the same object when the pointers agree. -/
structure ChunkObject where
  address : ℕ
  deriving DecidableEq

structure Chunk where
  metadata : Option ChunkMetadata := none
  ref : Bytes := []
  data : Bytes := []
  object : Option ChunkObject := none
  deriving DecidableEq

def Chunk.validate (c : Chunk) : StatusOr Unit :=
  if c.ref ≠ [] ∧ c.data ≠ [] then .error (.invalidArgument "Only one of ref or data may be set")
  else if c.object.isSome ∧ c.ref ≠ [] then
    .error (.invalidArgument "A chunk carrying an object cannot also reference another node")
  else match c.metadata with
    | some m => m.validate
    | none => .ok ()

structure StorageCredentials where
  scheme : Bytes
  fields : ByteMap
  deriving DecidableEq

def StorageCredentials.validate (c : StorageCredentials) : StatusOr Unit := do
  validateName c.scheme
  checkAll (fun e => validateName e.1) c.fields.entries

structure StorageService where
  role : Bytes
  endpoint : Bytes
  credentials : Option StorageCredentials
  deriving DecidableEq

def StorageService.validate (s : StorageService) : StatusOr Unit := do
  validateName s.role
  match s.credentials with
  | some c => c.validate
  | none => .ok ()

structure StorageIdentity where
  id : Bytes
  credentials : Option StorageCredentials
  services : List StorageService
  deriving DecidableEq

def StorageIdentity.validate (s : StorageIdentity) : StatusOr Unit := do
  validateName s.id
  match s.credentials with
  | some c => c.validate
  | none => .ok ()
  checkAll StorageService.validate s.services

structure NodeRef where
  id : Bytes
  offset : UInt32 := 0
  length : Option UInt64 := none
  storage : Option StorageIdentity := none
  deriving DecidableEq

def NodeRef.validate (r : NodeRef) : StatusOr Unit := do
  validateName r.id
  match r.storage with
  | some s => s.validate
  | none => .ok ()
  match r.length with
  | some n =>
    if uint32Range < n.toNat ∨ uint32Range < n.toNat+r.offset.toNat then
      .error (.invalidArgument "Offset + length must not exceed 2^32")
    else .ok ()
  | none => .ok ()

/-- `std::variant<Chunk, NodeRef>`. -/
inductive Payload
  | chunk (c : Chunk)
  | nodeRef (r : NodeRef)
  deriving DecidableEq

def Payload.validate : Payload → StatusOr Unit
  | .chunk c => c.validate
  | .nodeRef r => r.validate

/-- No chunk of the payload still holds an in-process value. -/
def Payload.ObjectFree : Payload → Prop
  | .chunk c => c.object = none
  | .nodeRef _ => True

structure NodeFragment where
  id : Bytes := []
  data : Payload := .chunk {}
  seq : Option UInt32 := none
  continued : Bool := false
  deriving DecidableEq

def NodeFragment.validate (f : NodeFragment) : StatusOr Unit := do
  if f.id ≠ [] then validateName f.id
  f.data.validate

structure Port where
  name : Bytes := []
  id : Bytes := []
  deriving DecidableEq

def Port.validate (p : Port) : StatusOr Unit := do
  if p.name ≠ [] then validateName p.name
  if p.id ≠ [] then validateName p.id

structure ActionMessage where
  id : Bytes := []
  name : Bytes := []
  inputs : List Port := []
  outputs : List Port := []
  headers : ByteMap := .empty
  deriving DecidableEq

def ActionMessage.validate (a : ActionMessage) : StatusOr Unit := do
  if a.id ≠ [] then validateName a.id
  if a.name ≠ [] then validateName a.name
  checkAll Port.validate a.inputs
  checkAll Port.validate a.outputs
  checkAll (fun e => validateName e.1) a.headers.entries

structure WireMessage where
  nodeFragments : List NodeFragment := []
  actions : List ActionMessage := []
  headers : ByteMap := .empty
  deriving DecidableEq

def WireMessage.validate (m : WireMessage) : StatusOr Unit := do
  checkAll NodeFragment.validate m.nodeFragments
  checkAll ActionMessage.validate m.actions
  checkAll (fun e => validateName e.1) m.headers.entries

/-! ### What a valid record guarantees -/

theorem Chunk.validate_metadata {c : Chunk} (h : c.validate = .ok ()) :
    ∀ m ∈ c.metadata, m.validate = .ok () := by
  intro m hm
  obtain hm : c.metadata = some m := hm
  simp only [validate,hm] at h
  split_ifs at h
  exact h

structure NodeRef.Checked (r : NodeRef) : Prop where
  storage : ∀ s ∈ r.storage, s.validate = .ok ()
  length : ∀ n ∈ r.length, n.toNat ≤ uint32Range

theorem NodeRef.validate_eq_ok {r : NodeRef} (h : r.validate = .ok ()) : r.Checked := by
  obtain ⟨_,offset,length,storage⟩ := r
  obtain ⟨-,h⟩ := StatusOr.check_bind_eq_ok.mp h
  constructor
  · rintro s rfl
    exact (StatusOr.check_bind_eq_ok.mp h).1
  · rintro n rfl
    have hlength : (if uint32Range < n.toNat ∨ uint32Range < n.toNat+offset.toNat then
        Except.error (Status.invalidArgument "Offset + length must not exceed 2^32")
        else Except.ok ()) = Except.ok () := by
      cases storage with
      | none => exact h
      | some s => exact (StatusOr.check_bind_eq_ok.mp h).2
    by_contra hn
    rw [if_pos (.inl (not_le.mp hn))] at hlength
    cases hlength

theorem NodeFragment.validate_eq_ok {f : NodeFragment} (h : f.validate = .ok ()) : f.data.validate = .ok () := by
  unfold validate at h
  split_ifs at h with hid
  · exact (StatusOr.check_bind_eq_ok.mp h).2
  · exact h

structure ActionMessage.Checked (a : ActionMessage) : Prop where
  inputs : checkAll Port.validate a.inputs = .ok ()
  outputs : checkAll Port.validate a.outputs = .ok ()
  headers : checkAll (fun e => validateName e.1) a.headers.entries = .ok ()

theorem ActionMessage.validate_eq_ok {a : ActionMessage} (h : a.validate = .ok ()) : a.Checked := by
  unfold validate at h
  have hrest : (do checkAll Port.validate a.inputs
                   checkAll Port.validate a.outputs
                   checkAll (fun e => validateName e.1) a.headers.entries) = Except.ok () := by
    split_ifs at h
    · exact (StatusOr.check_bind_eq_ok.mp (StatusOr.check_bind_eq_ok.mp h).2).2
    · exact (StatusOr.check_bind_eq_ok.mp h).2
    · exact (StatusOr.check_bind_eq_ok.mp h).2
    · exact h
  obtain ⟨hinputs,hrest⟩ := StatusOr.check_bind_eq_ok.mp hrest
  obtain ⟨houtputs,hhdr⟩ := StatusOr.check_bind_eq_ok.mp hrest
  exact ⟨hinputs,houtputs,hhdr⟩

structure WireMessage.Checked (m : WireMessage) : Prop where
  fragments : ∀ f ∈ m.nodeFragments, f.validate = .ok ()
  actions : ∀ a ∈ m.actions, a.validate = .ok ()
  headers : checkAll (fun e => validateName e.1) m.headers.entries = .ok ()

theorem WireMessage.validate_eq_ok {m : WireMessage} (h : m.validate = .ok ()) : m.Checked := by
  obtain ⟨hfrag,hrest⟩ := StatusOr.check_bind_eq_ok.mp h
  obtain ⟨hact,hhdr⟩ := StatusOr.check_bind_eq_ok.mp hrest
  exact ⟨checkAll_eq_ok.mp hfrag,checkAll_eq_ok.mp hact,hhdr⟩

def WireMessage.ObjectFree (m : WireMessage) : Prop := ∀ f ∈ m.nodeFragments, f.data.ObjectFree

/-- `"__tombstone__"`, the reference every store leaves on a cleared chunk. -/
def tombstoneReference : Bytes := [95,95,116,111,109,98,115,116,111,110,101,95,95]

/-- What clearing leaves of a chunk: the payload is dropped and the reference is
replaced, while metadata and object stay as they were. -/
def Chunk.tombstone (c : Chunk) : Chunk := { c with data := [], ref := tombstoneReference }

@[simp] theorem Chunk.tombstone_tombstone (c : Chunk) : c.tombstone.tombstone = c.tombstone := rfl

end A11
