import A11.Ascii
import A11.ChunkStoreWriter

/-! The reader of a chunk store, as it reads the positions one after another with nothing else
under way. -/
namespace A11

def octetStream : Bytes := Ascii.ofString "application/octet-stream"

namespace ChunkStoreReader

open ChunkStoreWriter (getMimetype)

structure Options where
  ordered : Bool := true
  popChunks : Bool := false
  numChunksToBuffer : ℕ := 32
  offset : UInt32 := 0
  maxChunksToRead : Option ℕ := none
  stickyMimetype : Bool := false
  followNodeRefs : Bool := true
  maxRefDepth : ℕ := 8
  maxRefBreadth : ℕ := 2

def Options.validate (o : Options) : StatusOr Unit :=
  if o.followNodeRefs ∧ (o.ordered = false ∨ o.popChunks) then
    .error (.invalidArgument "Following references requires ordered, non-destructive reads")
  else if o.maxRefDepth = 0 ∨ 64 < o.maxRefDepth ∨ o.maxRefBreadth = 0 ∨ 64 < o.maxRefBreadth then
    .error (.outOfRange "Reference depth and breadth must be 1..64")
  else if uint32Range < o.numChunksToBuffer then
    .error (.outOfRange "num_chunks_to_buffer exceeds 2^32")
  else if o.maxChunksToRead.any (uint32Range < ·) then
    .error (.outOfRange "max_chunks_to_read exceeds 2^32")
  else .ok ()

/-! ### Reading one position after another -/

/-- What the store answers for a position, and for clearing a sequence. -/
structure Store where
  get : ℕ → StatusOr NodeFragment
  clearData : UInt32 → StatusOr NodeFragment

/-- Where reading stands; `fragments` is everything read so far. -/
structure Cursor where
  position : ℕ
  chunksRead : ℕ := 0
  currentMimetype : Bytes := []
  status : Option Status := none
  fragments : List NodeFragment := []

/-- A chunk without a mimetype takes over the last one, which is kept for the next. -/
def expandSticky (o : Options) (current : Bytes) (f : NodeFragment) : NodeFragment × Bytes :=
  if o.ordered && o.stickyMimetype then
    match f.data with
    | .chunk c =>
      if getMimetype c ≠ [] then (f,getMimetype c)
      else if current ≠ [] then
        ({ f with data := .chunk { c with
            metadata := some { c.metadata.getD ⟨[],none,.empty⟩ with mimetype := current } } },
          current)
      else (f,current)
    | .nodeRef _ => (f,current)
  else (f,current)

def endStatus (o : Options) (chunksRead : ℕ) (continued : Bool) : Option Status :=
  if o.maxChunksToRead = some chunksRead then some .okStatus
  else if o.ordered && !continued then
    match o.maxChunksToRead with
    | none => some .okStatus
    | some n => some (.outOfRange
        s!"The final fragment arrived after {chunksRead} chunks, before max_chunks_to_read={n}")
  else none

def finishFragment (o : Options) (c : Cursor) (f : NodeFragment) : Cursor :=
  let (expanded,mimetype) := expandSticky o c.currentMimetype f
  { position := c.position+1
    chunksRead := c.chunksRead+1
    currentMimetype := mimetype
    status := endStatus o (c.chunksRead+1) f.continued
    fragments := c.fragments++[expanded] }

def failedStatus (o : Options) (status : Status) : Status :=
  if status.code = .notFound ∧ o.maxChunksToRead = none then .okStatus else status

/-- Read the next position, with nothing else under way. -/
def readOne (o : Options) (store : Store) (c : Cursor) : Cursor :=
  if c.status.isSome then c
  else if o.maxChunksToRead = some 0 then { c with status := some .okStatus }
  else if maxSeq < c.position then
    { c with status := some (.outOfRange "ChunkStoreReader position exceeds the sequence range") }
  else match store.get c.position with
    | .error status => { c with status := some (failedStatus o status) }
    | .ok f =>
      match f.seq with
      | none => { c with
          status := some (.dataLoss "ChunkStore returned a fragment without a sequence number") }
      | some seq =>
        if o.popChunks then
          match store.clearData seq with
          | .error status => { c with status := some status }
          | .ok cleared => finishFragment o c cleared
        else finishFragment o c f

def start (o : Options) : Cursor := { position := o.offset.toNat }

def sequential (o : Options) (store : Store) : ℕ → Cursor
  | 0 => start o
  | n+1 => readOne o store (sequential o store n)

end ChunkStoreReader
end A11
