import A11.ByteChunking
import A11.Runs
import A11.SortedEntries

/-! The receiving side of a channel that stripes its packets over several member channels. Every
call of OnMemberMessage runs in a fiber of its own; each of its locked sections, and each call of
the message callback in between, is one step. -/
namespace A11.Multiplexed
open List Function Entries Runs

/-! ### Frames -/

def sequenceSuffix : ℕ := 8

/-- The packet with its number behind it. -/
def encodeSequence (sequence : UInt64) (packet : Bytes) : Bytes :=
  packet++littleEndian sequenceSuffix sequence.toNat

def decodeSequence (framed : Bytes) : UInt64 :=
  UInt64.ofNat (ofLittleEndian (framed.drop (framed.length-sequenceSuffix)))

section

variable (sequence : UInt64) (packet : Bytes)

theorem length_encodeSequence :
    (encodeSequence sequence packet).length = packet.length+sequenceSuffix := by
  simp [encodeSequence]

theorem decodeSequence_encodeSequence :
    decodeSequence (encodeSequence sequence packet) = sequence := by
  have hlt : sequence.toNat < 256^sequenceSuffix := sequence.toNat_lt
  rw [decodeSequence,length_encodeSequence,Nat.add_sub_cancel,encodeSequence,drop_left,
    ofLittleEndian_of_lt hlt,UInt64.ofNat_toNat]

theorem take_encodeSequence : (encodeSequence sequence packet).take
      ((encodeSequence sequence packet).length-sequenceSuffix) = packet := by
  rw [length_encodeSequence,Nat.add_sub_cancel,encodeSequence,take_left]

end

/-! ### Reordering -/

structure Receiver where
  maxReorderPackets : ℕ
  /-- Whether the callbacks for messages and for errors are installed. -/
  onMessage : Bool
  onError : Bool
  nextDeliverSeq : UInt64 := 0
  reorder : List (UInt64 × Bytes) := []
  delivering : Bool := false
  closed : Bool := false
  /-- The packets that a call has taken and not yet handed over. -/
  ready : ℕ → Option (List Bytes) := fun _ => none
  handed : List Bytes := []

/-- The packets that are next in order, the number after them, and the rest. -/
def takeReady (next : UInt64) : List (UInt64 × Bytes) → List Bytes × UInt64 × List (UInt64 × Bytes)
  | [] => ([],next,[])
  | (sequence,packet)::rest =>
    if sequence = next then
      let r := takeReady (next+1) rest
      (packet::r.1,r.2)
    else ([],next,(sequence,packet)::rest)

namespace Receiver

/-- Keeps a packet that has not been delivered and is not there yet. -/
def insert (r : Receiver) (sequence : UInt64) (packet : Bytes) : Receiver :=
  { r with reorder := emplace sequence packet r.reorder }

def isNew (r : Receiver) (sequence : UInt64) : Bool :=
  decide (r.nextDeliverSeq ≤ sequence) && (find sequence r.reorder).isNone

def full (r : Receiver) : Bool := decide (r.maxReorderPackets ≤ r.reorder.length)

/-- Takes the packets that are next in order. -/
def collect (r : Receiver) (call : ℕ) : Receiver :=
  let taken := takeReady r.nextDeliverSeq r.reorder
  { r with
    nextDeliverSeq := taken.2.1
    reorder := taken.2.2
    ready := update r.ready call (some taken.1) }

/-- Ends a call that holds the claim. -/
def release (r : Receiver) (call : ℕ) : Receiver :=
  { r with delivering := false, ready := update r.ready call none }

/-- Claims the delivery. Without a message callback the call ends here, with the claim. -/
def claim (r : Receiver) (call : ℕ) : Receiver :=
  let claimed := { r with delivering := true }.collect call
  if r.onMessage then claimed
  else { claimed with ready := update claimed.ready call none }

/-- A member has delivered a frame. -/
def onMemberMessage (r : Receiver) (call : ℕ) (framed : Bytes) : Receiver :=
  if framed.length < sequenceSuffix then r
  else if r.closed then r
  else
    let sequence := decodeSequence framed
    let packet := framed.take (framed.length-sequenceSuffix)
    if r.isNew sequence ∧ r.full ∧ r.onError then r
    else
      let kept := if r.isNew sequence ∧ ¬r.full then r.insert sequence packet else r
      if kept.delivering then kept else kept.claim call

/-- The next step of a call that holds the claim: it hands over a packet, or looks for more. -/
def advance (r : Receiver) (call : ℕ) : Receiver :=
  match r.ready call with
  | none => r
  | some (packet::rest) =>
    { r with handed := r.handed++[packet], ready := update r.ready call (some rest) }
  | some [] =>
    let collected := r.collect call
    if collected.ready call = some [] then collected.release call
    else if r.onMessage then collected
    else collected.release call

def close (r : Receiver) : Receiver := { r with closed := true, reorder := [] }

end Receiver

inductive Delivery
  | arrive (call : ℕ) (sequence : UInt64)
  | advance (call : ℕ)
  | close

/-- One step, with the packets that the sender has numbered. A call number is used again only
after the call has ended. -/
def deliver (packets : UInt64 → Bytes) (r : Receiver) : Delivery → Receiver
  | .arrive call sequence =>
    if r.ready call = none then r.onMemberMessage call (encodeSequence sequence (packets sequence))
    else r
  | .advance call => r.advance call
  | .close => r.close

def received (maxReorderPackets : ℕ) (onError : Bool) (packets : UInt64 → Bytes)
    (deliveries : List Delivery) : Receiver :=
  after (deliver packets) { maxReorderPackets, onMessage := true, onError } deliveries

variable {packets : UInt64 → Bytes} {r : Receiver} {call : ℕ}

/-! ### Callbacks that come and go -/

inductive Change
  | arrive (call : ℕ) (framed : Bytes)
  | advance (call : ℕ)
  | setCallbacks (onMessage onError : Bool)
  | resetCallbacks
  | close

def change (r : Receiver) : Change → Receiver
  | .arrive call framed => if r.ready call = none then r.onMemberMessage call framed else r
  | .advance call => r.advance call
  | .setCallbacks onMessage onError => { r with onMessage, onError }
  | .resetCallbacks => { r with onMessage := false, onError := false }
  | .close => r.close

namespace Receiver

/-- A new packet finds the buffer full, and this is reported. -/
def overflows (r : Receiver) (framed : Bytes) : Bool :=
  r.isNew (decodeSequence framed) && r.full && r.onError

def ignores (r : Receiver) (framed : Bytes) : Bool :=
  decide (framed.length < sequenceSuffix) || r.closed || r.overflows framed

/-- Keeps the packet if it is new and there is room. -/
def keep (r : Receiver) (framed : Bytes) : Receiver :=
  if r.isNew (decodeSequence framed) ∧ ¬r.full then
    r.insert (decodeSequence framed) (framed.take (framed.length-sequenceSuffix))
  else r

@[simp] theorem keep_delivering (r : Receiver) (framed : Bytes) :
    (r.keep framed).delivering = r.delivering := by
  rw [keep]
  split_ifs <;> rfl

@[simp] theorem keep_onMessage (r : Receiver) (framed : Bytes) :
    (r.keep framed).onMessage = r.onMessage := by
  rw [keep]
  split_ifs <;> rfl

theorem onMemberMessage_eq (r : Receiver) (call : ℕ) (framed : Bytes) :
    r.onMemberMessage call framed = if r.ignores framed then r
      else if r.delivering then r.keep framed else (r.keep framed).claim call := by
  rw [← keep_delivering r framed,onMemberMessage]
  by_cases hsh : framed.length < sequenceSuffix
  · simp [ignores,hsh]
  · by_cases hcls : r.closed
    · simp [ignores,hcls]
    · simp [ignores,hsh,hcls,overflows,keep,and_assoc]

end Receiver

/-- The packets that a step takes out of the buffer. -/
def taken (r : Receiver) : Change → List Bytes
  | .arrive call framed =>
    if r.ready call = none ∧ ¬r.ignores framed ∧ ¬r.delivering then
      (takeReady (r.keep framed).nextDeliverSeq (r.keep framed).reorder).1
    else []
  | .advance call =>
    if r.ready call = some [] then (takeReady r.nextDeliverSeq r.reorder).1 else []
  | _ => []

/-- A step that begins to deliver, or goes on with more packets, finds a message callback. -/
def Answered (r : Receiver) : Change → Prop
  | .arrive call framed =>
    r.ready call = none → r.ignores framed = false → r.delivering = false → r.onMessage = true
  | .advance call =>
    r.ready call = some [] → (takeReady r.nextDeliverSeq r.reorder).1 ≠ [] → r.onMessage = true
  | _ => True

/-- The packets taken so far have been handed over, or are in the hands of the one call that
holds the claim. -/
inductive Tracked (all : List Bytes) (r : Receiver) : Prop
  | idle (clear : r.delivering = false) (ready : r.ready = fun _ => none) (handed : r.handed = all)
  | busy (call : ℕ) (rest : List Bytes) (claimed : r.delivering = true)
      (ready : r.ready = update (fun _ => none) call (some rest))
      (handed : r.handed++rest = all)

section

variable {all : List Bytes} (h : Tracked all r)

include h

theorem Tracked.of_idle (hnone : ∀ call, r.ready call = none) :
    r.delivering = false ∧ r.handed = all := by
  cases h with
  | idle clear ready handed => exact ⟨clear,handed⟩
  | busy call rest claimed ready => simpa [ready] using hnone call

theorem Tracked.of_ready {rest : List Bytes} (hrdy : r.ready call = some rest) :
    r.handed++rest = all := by
  cases h with
  | idle clear ready => simp [ready] at hrdy
  | busy owner rest' claimed ready handed =>
    rw [ready,update_apply] at hrdy
    split_ifs at hrdy
    rwa [← Option.some.inj hrdy]

theorem Tracked.congr {r' : Receiver} (hdel : r'.delivering = r.delivering)
    (hrdy : r'.ready = r.ready) (hhanded : r'.handed = r.handed) : Tracked all r' := by
  cases h with
  | idle clear ready handed =>
    exact .idle (hdel.trans clear) (hrdy.trans ready) (hhanded.trans handed)
  | busy call rest claimed ready handed =>
    exact .busy call rest (hdel.trans claimed) (hrdy.trans ready) (by rw [hhanded,handed])

theorem Tracked.keep (framed : Bytes) : Tracked all (r.keep framed) := by
  rw [Receiver.keep]
  split_ifs
  · exact h.congr rfl rfl rfl
  · exact h

theorem Tracked.claim (call : ℕ) (hclr : r.delivering = false) (hinst : r.onMessage = true) :
    Tracked (all++(takeReady r.nextDeliverSeq r.reorder).1) (r.claim call) := by
  cases h with
  | idle clear ready handed =>
    rw [Receiver.claim,if_pos hinst,← handed]
    exact .busy call _ rfl (by rw [Receiver.collect,ready]) rfl
  | busy call rest claimed => simp [hclr] at claimed

theorem Tracked.advance (call : ℕ) (hans : Answered r (.advance call)) :
    Tracked (all++taken r (.advance call)) (r.advance call) := by
  rw [Receiver.advance,taken]
  cases h with
  | idle clear ready handed => simpa [ready] using Tracked.idle clear ready handed
  | busy call' rest claimed ready handed =>
    by_cases hcall : call = call'
    · subst hcall
      have hrdy : r.ready call = some rest := by simp [ready]
      cases rest with
      | cons packet rest =>
        simp only [hrdy]
        refine .busy call rest claimed ?_ ?_
        · simp [ready]
        · simpa using handed
      | nil =>
        rw [append_nil] at handed
        simp only [hrdy,if_pos,Receiver.collect,update_self,Option.some.injEq]
        split_ifs with hemp hinst
        · refine .idle rfl ?_ ?_
          · simp [Receiver.release,ready]
          · simp [Receiver.release,hemp,handed]
        · refine .busy call (takeReady r.nextDeliverSeq r.reorder).1 claimed ?_ ?_
          · simp [ready]
          · simp [handed]
        · exact absurd (hans hrdy hemp) hinst
    · simpa [ready,hcall] using Tracked.busy call' rest claimed ready handed

theorem Tracked.step (c : Change) (hans : Answered r c) :
    Tracked (all++taken r c) (change r c) := by
  cases c with
  | arrive call framed =>
    rw [taken,change,Receiver.onMemberMessage_eq]
    by_cases hrdy : r.ready call = none
    · cases hignores : r.ignores framed with
      | true => simpa [hrdy] using h
      | false =>
        cases hdel : r.delivering with
        | true => simpa [hrdy] using h.keep framed
        | false =>
          have hinst := hans hrdy hignores hdel
          simpa [hrdy] using (h.keep framed).claim call (by simpa) (by simpa)
    · simpa [hrdy] using h
  | advance call => exact h.advance call hans
  | setCallbacks | resetCallbacks | close => exact (append_nil all).symm ▸ h.congr rfl rfl rfl

theorem Tracked.after {changes : List Change} (hans : Runs.Along change Answered r changes) :
    Tracked (all++(answers (fun r c => (taken r c,change r c)) r changes).flatten)
      (Runs.after change r changes) := by
  induction changes generalizing r all with
  | nil => simpa [Runs.answers,Runs.after] using h
  | cons c changes ih =>
    have hrest := ih (h.step c hans.1) hans.2
    rwa [append_assoc] at hrest

end

/-! ### Order -/

/-- The packets with the first numbers. -/
def firstPackets (packets : UInt64 → Bytes) (n : ℕ) : List Bytes :=
  (List.range n).map fun i => packets (UInt64.ofNat i)

theorem firstPackets_succ (packets : UInt64 → Bytes) (n : ℕ) :
    firstPackets packets (n+1) = firstPackets packets n++[packets (UInt64.ofNat n)] := by
  simp [firstPackets,range_succ]

variable {entries : List (UInt64 × Bytes)}

/-- What is taken continues the packets taken before. -/
theorem takeReady_spec (hent : ∀ e ∈ entries, e.2 = packets e.1) (n : ℕ) :
    ∃ m, firstPackets packets n++(takeReady (UInt64.ofNat n) entries).1 = firstPackets packets m ∧
      (takeReady (UInt64.ofNat n) entries).2.1 = UInt64.ofNat m ∧
      ∀ e ∈ (takeReady (UInt64.ofNat n) entries).2.2, e ∈ entries := by
  induction entries generalizing n with
  | nil => exact ⟨n,by simp [takeReady]⟩
  | cons e entries ih =>
    obtain ⟨sequence,packet⟩ := e
    rw [takeReady]
    by_cases hnext : sequence = UInt64.ofNat n
    · obtain ⟨m,htak,hm,hrest⟩ := ih (fun e he => hent e (by simp [he])) (n+1)
      have hpkt : packet = packets (UInt64.ofNat n) := by
        rw [← hnext]
        exact hent (sequence,packet) (by simp)
      have hsucc : UInt64.ofNat n+1 = UInt64.ofNat (n+1) := by simp
      simp only [if_pos hnext,hsucc]
      refine ⟨m,?_,hm,fun e he => by simp [hrest e he]⟩
      rw [← htak,firstPackets_succ,hpkt]
      simp
    · simp only [if_neg hnext]
      exact ⟨n,by simp⟩

/-- The packets taken are the first ones, and every packet in the buffer has its own number. -/
structure Numbered (packets : UInt64 → Bytes) (r : Receiver) : Prop where
  installed : r.onMessage = true
  entries : ∀ e ∈ r.reorder, e.2 = packets e.1
  count : ∃ n, r.nextDeliverSeq = UInt64.ofNat n ∧ Tracked (firstPackets packets n) r

section

variable (h : Numbered packets r)

include h

theorem Numbered.keep (sequence : UInt64) :
    Numbered packets (r.keep (encodeSequence sequence (packets sequence))) := by
  obtain ⟨n,hnext,htrk⟩ := h.count
  have hkeep := htrk.keep (encodeSequence sequence (packets sequence))
  rw [Receiver.keep,decodeSequence_encodeSequence,take_encodeSequence] at hkeep ⊢
  split_ifs at hkeep ⊢
  · refine ⟨h.installed,fun e he => ?_,n,hnext,hkeep⟩
    rcases mem_emplace he with rfl | he
    · rfl
    · exact h.entries e he
  · exact h

theorem Numbered.claim (hclr : r.delivering = false) (call : ℕ) :
    Numbered packets (r.claim call) := by
  obtain ⟨n,hnext,htrk⟩ := h.count
  obtain ⟨m,htak,hm,hrest⟩ := takeReady_spec h.entries n
  have hclaim := htrk.claim call hclr h.installed
  rw [hnext,htak] at hclaim
  rw [← hnext] at hm hrest
  rw [Receiver.claim,if_pos h.installed] at hclaim ⊢
  exact ⟨h.installed,fun e he => h.entries e (hrest e he),m,hm,hclaim⟩

theorem Numbered.advance (call : ℕ) : Numbered packets (r.advance call) := by
  obtain ⟨n,hnext,htrk⟩ := h.count
  have hadv := htrk.advance call fun _ _ => h.installed
  rw [taken] at hadv
  cases hrdy : r.ready call with
  | none => rwa [Receiver.advance,hrdy]
  | some ready =>
    cases ready with
    | cons packet rest =>
      simp [Receiver.advance,hrdy] at hadv ⊢
      exact ⟨h.installed,h.entries,n,hnext,hadv⟩
    | nil =>
      obtain ⟨m,htak,hm,hrest⟩ := takeReady_spec h.entries n
      rw [if_pos hrdy,hnext,htak] at hadv
      rw [← hnext] at hm hrest
      simp [Receiver.advance,hrdy] at hadv ⊢
      split_ifs at hadv ⊢ <;>
        exact ⟨h.installed,fun e he => h.entries e (hrest e he),m,hm,hadv⟩

theorem Numbered.deliver (d : Delivery) : Numbered packets (deliver packets r d) := by
  obtain ⟨n,hnext,htrk⟩ := h.count
  cases d with
  | arrive call sequence =>
    rw [Multiplexed.deliver,Receiver.onMemberMessage_eq]
    split_ifs with hrdy hignores hdel
    · exact h
    · exact h.keep sequence
    · exact (h.keep sequence).claim (by simpa using hdel) call
    · exact h
  | advance call => exact h.advance call
  | close =>
    refine ⟨h.installed,?_,n,hnext,htrk.congr rfl rfl rfl⟩
    simp [Multiplexed.deliver,Receiver.close]

end

theorem received_numbered (maxReorderPackets : ℕ) (onError : Bool) (packets : UInt64 → Bytes)
    (deliveries : List Delivery) :
    Numbered packets (received maxReorderPackets onError packets deliveries) :=
  after_invariant (fun _ d h => h.deliver d) ⟨rfl,by simp,0,rfl,.idle rfl rfl rfl⟩ deliveries

theorem Numbered.starts (h : Numbered packets r) : ∃ n, r.handed <+: firstPackets packets n := by
  obtain ⟨n,-,htrk⟩ := h.count
  refine ⟨n,?_⟩
  cases htrk with
  | idle clear ready handed => rw [handed]
  | busy owner rest claimed ready handed =>
    rw [← handed]
    exact prefix_append _ _

theorem eq_firstPackets_of_begins {handed : List Bytes} {n : ℕ}
    (h : handed <+: firstPackets packets n) : handed = firstPackets packets handed.length := by
  have hlen : handed.length ≤ n := by simpa [firstPackets] using h.length_le
  rw [prefix_iff_eq_take.mp h]
  simp [firstPackets,← map_take,take_range,hlen]

/-- Whatever the members deliver, in whatever order and how often, and however the calls that
hand over interleave, the packets handed over are those with the numbers 0, 1, 2 and so on, in
this order, counted as 64-bit numbers; up to 2^64 packets no number comes twice. -/
theorem handed_eq (maxReorderPackets : ℕ) (onError : Bool) (packets : UInt64 → Bytes)
    (deliveries : List Delivery) :
    (received maxReorderPackets onError packets deliveries).handed =
      (List.range (received maxReorderPackets onError packets deliveries).handed.length).map
        (fun i => packets (UInt64.ofNat i)) ∧
    ((received maxReorderPackets onError packets deliveries).handed.length ≤ 2^64 →
      ((List.range (received maxReorderPackets onError packets deliveries).handed.length).map
        UInt64.ofNat).Nodup) := by
  obtain ⟨n,hn⟩ := (received_numbered maxReorderPackets onError packets deliveries).starts
  refine ⟨eq_firstPackets_of_begins hn,fun hlen => ?_⟩
  refine nodup_range.map_on ?_
  intro i hi j hj heq
  rw [mem_range] at hi hj
  have hnat := congrArg UInt64.toNat heq
  rwa [UInt64.toNat_ofNat_of_lt' (hi.trans_le hlen),
    UInt64.toNat_ofNat_of_lt' (hj.trans_le hlen)] at hnat

/-- Two calls: the second packet arrives first, and once more while the first is handed over. -/
def swappedRun : List Delivery :=
  [.arrive 0 1,.advance 0,.arrive 0 0,.arrive 1 1,.advance 0,.advance 0,.advance 0]

theorem handed_eq_swapped :
    (received 4096 true (fun sequence => littleEndian 8 sequence.toNat) swappedRun).handed =
      [littleEndian 8 0,littleEndian 8 1] ∧ ((List.range 2).map UInt64.ofNat).Nodup := by
  have hlen : (received 4096 true (fun sequence => littleEndian 8 sequence.toNat)
      swappedRun).handed.length = 2 := by decide
  obtain ⟨hhanded,hnd⟩ :=
    handed_eq 4096 true (fun sequence => littleEndian 8 sequence.toNat) swappedRun
  rw [hlen] at hhanded hnd
  exact ⟨hhanded,hnd (by norm_num)⟩

/-- A packet arrives, is handed over, and nothing else is there. -/
def passOne (sequence : UInt64) : List Delivery := [.arrive 0 sequence,.advance 0,.advance 0]

theorem after_passOne (packets : UInt64 → Bytes) {maxReorderPackets : ℕ} (onError : Bool)
    (hmax : 0 < maxReorderPackets) (next : UInt64) (handed : List Bytes) :
    after (deliver packets)
      { maxReorderPackets, onMessage := true, onError, nextDeliverSeq := next, handed }
      (passOne next) =
      { maxReorderPackets, onMessage := true, onError, nextDeliverSeq := next+1,
        handed := handed++[packets next] } := by
  have hlen : ¬(encodeSequence next (packets next)).length < sequenceSuffix := by
    rw [length_encodeSequence]
    omega
  have hroom : ¬maxReorderPackets ≤ 0 := by omega
  simp [passOne,Runs.after,deliver,Receiver.onMemberMessage,hlen,decodeSequence_encodeSequence,
    take_encodeSequence,Receiver.isNew,Receiver.full,Receiver.insert,Receiver.claim,
    Receiver.collect,Receiver.advance,Receiver.release,find,emplace,takeReady,hroom]

theorem received_passAll (packets : UInt64 → Bytes) {maxReorderPackets : ℕ} (onError : Bool)
    (hmax : 0 < maxReorderPackets) (n : ℕ) :
    received maxReorderPackets onError packets
      ((List.range n).flatMap fun i => passOne (UInt64.ofNat i)) =
      { maxReorderPackets, onMessage := true, onError, nextDeliverSeq := UInt64.ofNat n,
        handed := firstPackets packets n } := by
  induction n with
  | zero => rfl
  | succ n ih =>
    rw [received] at ih ⊢
    rw [range_succ,flatMap_append,after_append,ih,flatMap_singleton,
      after_passOne packets onError hmax,firstPackets_succ]
    simp

/-- All the packets that can be told apart, and then the first one once more. -/
def wrapRun : List Delivery :=
  ((List.range (2^64)).flatMap fun i => passOne (UInt64.ofNat i))++passOne 0

/-- After 2^64 packets the count starts again and an old packet is taken for a new one. -/
theorem wrapRun_repeats :
    ¬(received 4096 true (fun sequence => littleEndian 8 sequence.toNat) wrapRun).handed.Nodup := by
  have hwrap : UInt64.ofNat (2^64) = 0 := rfl
  have hhanded : (received 4096 true (fun sequence => littleEndian 8 sequence.toNat)
      wrapRun).handed = firstPackets (fun sequence => littleEndian 8 sequence.toNat) (2^64)++
        [littleEndian 8 (0 : UInt64).toNat] := by
    have hall := received_passAll (fun sequence => littleEndian 8 sequence.toNat) true
      (Nat.zero_lt_succ 4095) (2^64)
    rw [received] at hall
    rw [received,wrapRun,after_append,hall,hwrap,after_passOne _ true (Nat.zero_lt_succ 4095)]
  rw [hhanded]
  intro hnd
  refine (nodup_append.mp hnd).2.2 _ ?_ _ (mem_singleton.mpr rfl) rfl
  exact mem_map.mpr ⟨0,mem_range.mpr (Nat.two_pow_pos 64),rfl⟩

/-- As long as every step that begins to deliver, or goes on with more packets, finds a message
callback, the claim is held only by a call that delivers, and the packets taken have been handed
over in the order in which they were taken or are in the hands of this call. -/
theorem claim_not_leaked (maxReorderPackets : ℕ) (onMessage onError : Bool) (changes : List Change)
    (hanswered : Runs.Along change Answered { maxReorderPackets, onMessage, onError } changes) :
    let r := after change { maxReorderPackets, onMessage, onError } changes
    let all := (answers (fun r c => (taken r c,change r c))
      { maxReorderPackets, onMessage, onError } changes).flatten
    ((∀ call, r.ready call = none) → r.delivering = false ∧ r.handed = all) ∧
      ∀ call rest, r.ready call = some rest → r.handed++rest = all := by
  have hinit : Tracked [] { maxReorderPackets, onMessage, onError } := .idle rfl rfl rfl
  have hend := hinit.after hanswered
  exact ⟨hend.of_idle,fun _ _ => hend.of_ready⟩

theorem claim_not_leaked_installed :
    []++[[7]] = (answers (fun r c => (taken r c,change r c))
      { maxReorderPackets := 1, onMessage := false, onError := false }
      [.setCallbacks true true,.arrive 0 (encodeSequence 0 [7])]).flatten :=
  (claim_not_leaked 1 false false [.setCallbacks true true,.arrive 0 (encodeSequence 0 [7])]
    ⟨trivial,fun _ _ _ => rfl,trivial⟩).2 0 [[7]] (by decide)

/-- A frame arrives after the callbacks have been reset: its call takes the packet, drops it and
ends, and the claim stays. -/
theorem claim_leaked :
    let r := after change { maxReorderPackets := 1, onMessage := true, onError := true }
      [.resetCallbacks,.arrive 0 (encodeSequence 0 [])]
    (∀ call, r.ready call = none) ∧ r.delivering = true ∧ r.nextDeliverSeq = 1 ∧ r.handed = [] :=
  ⟨fun call => by
    show update (update (fun _ => none) 0 _) 0 none call = none
    rw [update_idem]
    simp, by decide⟩

/-! ### The packet that is awaited -/

theorem takeReady_of_find_none {next : UInt64}
    (h : find next entries = none) : takeReady next entries = ([],next,entries) := by
  cases entries with
  | nil => rfl
  | cons e entries =>
    rw [takeReady,if_neg]
    rintro rfl
    simp [find] at h

theorem takeReady_of_find_some {next : UInt64} {packet : Bytes}
    (h : find next entries = some packet) :
    find next (takeReady next entries).2.2 = some packet ∨
      packet ∈ (takeReady next entries).1 := by
  cases entries with
  | nil => simp [find] at h
  | cons e entries =>
    rw [takeReady]
    rw [find] at h
    split_ifs at h ⊢ with hnext
    · simp [Option.some.inj h]
    · exact .inl (by rwa [find,if_neg hnext])

theorem find_emplace {next : UInt64} (h : find next entries = none) (packet : Bytes) :
    find next (emplace next packet entries) = some packet := by
  induction entries with
  | nil => simp [emplace,find]
  | cons e entries ih =>
    rw [find] at h
    split_ifs at h with hne
    rw [emplace]
    split_ifs
    · rw [find,if_neg hne,ih h]
    · simp [find]

theorem Receiver.claim_reorder (r : Receiver) (call : ℕ) :
    (r.claim call).reorder = (takeReady r.nextDeliverSeq r.reorder).2.2 := by
  rw [claim]
  split_ifs <;> rfl

/-- The packet was there already, is in the buffer now, or has been taken. -/
def Accepted (r : Receiver) (call : ℕ) (framed : Bytes) : Prop :=
  (find (decodeSequence framed) r.reorder).isSome ∨
    (find (decodeSequence framed) (change r (.arrive call framed)).reorder).isSome ∨
    framed.take (framed.length-sequenceSuffix) ∈ taken r (.arrive call framed)

/-- A frame with the number that is awaited is accepted, without an error, exactly if the packet is
in the buffer already or the buffer is not full. -/
theorem awaited_accepted_iff (maxReorderPackets : ℕ) (onMessage onError : Bool)
    (changes : List Change) (call : ℕ) (framed : Bytes) :
    let r := after change { maxReorderPackets, onMessage, onError } changes
    r.closed = false → r.ready call = none → sequenceSuffix ≤ framed.length →
    decodeSequence framed = r.nextDeliverSeq →
    (Accepted r call framed ∧ r.overflows framed = false ↔
      r.isNew r.nextDeliverSeq = false ∨ r.full = false) := by
  intro r hopen hrdy hlong hnext
  have hnew : r.isNew r.nextDeliverSeq = (find r.nextDeliverSeq r.reorder).isNone := by
    simp [Receiver.isNew]
  have hignores : r.ignores framed = r.overflows framed := by
    simp [Receiver.ignores,hopen,hlong]
  rw [Accepted,taken,change,Receiver.onMemberMessage_eq,hignores,
    Receiver.overflows,Receiver.keep,hnext,hnew]
  cases hfind : find r.nextDeliverSeq r.reorder with
  | some packet => simp
  | none =>
    cases hfull : r.full with
    | true =>
      have hkept : (r.claim call).reorder = r.reorder := by
        rw [Receiver.claim_reorder,takeReady_of_find_none hfind]
      simp [takeReady_of_find_none hfind]
      split_ifs <;> simp [*]
    | false =>
      simp [hrdy]
      split_ifs with hdel
      · simp [Receiver.insert,find_emplace hfind]
      · have hstor := find_emplace hfind (framed.take (framed.length-sequenceSuffix))
        simp [hdel,Receiver.claim_reorder,Receiver.insert]
        exact (takeReady_of_find_some hstor).imp (by simp +contextual) id

theorem awaited_accepted_iff_first :
    let r : Receiver := { maxReorderPackets := 1, onMessage := true, onError := true }
    Accepted r 0 (encodeSequence 0 []) ∧ r.overflows (encodeSequence 0 []) = false :=
  (awaited_accepted_iff 1 true true [] 0 (encodeSequence 0 []) rfl rfl (by decide)
    (by decide)).mpr (.inr rfl)

/-- With room for one packet, packet 1 comes first. When packet 0 comes, the buffer is full. -/
theorem awaited_refused :
    let r := after change { maxReorderPackets := 1, onMessage := true, onError := true }
      [.arrive 0 (encodeSequence 1 []),.advance 0]
    r.closed = false ∧ r.ready 0 = none ∧ r.nextDeliverSeq = 0 ∧
      r.overflows (encodeSequence 0 []) = true ∧
      (change r (.arrive 0 (encodeSequence 0 []))).reorder = [(1,[])] := by
  decide

end A11.Multiplexed
