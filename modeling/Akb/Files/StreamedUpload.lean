import Mathlib.Data.List.Basic

/-! The upload of a body of unknown length: one request, or several parts, or nothing. -/
namespace Akb.Files

abbrev Bytes := List UInt8

/-! ### The object store -/

/-- How a call to the object store ends for its caller. It can raise and still take effect: the reply is lost, or the await is
cancelled while the call goes on in its thread. -/
inductive Call where
  | returns
  | raises (applied : Bool)
  deriving DecidableEq

/-- The calls of one upload; a part is sent at most once. -/
structure Env where
  create : Call
  part : Nat → Call
  complete : Call
  put : Call

/-- The store at one key: its object, the parts of each multipart upload that was created, and the uploads aborted. -/
structure Store where
  object : Option Bytes
  uploads : List (List (Nat × Bytes))
  aborted : List Nat

namespace Store

def create (s : Store) : Store := { s with uploads := s.uploads ++ [[]] }

def putPart (s : Store) (id number : Nat) (body : Bytes) : Store :=
  { s with uploads := s.uploads.modify id (· ++ [(number, body)]) }

/-- The parts that are named, in their order, become the object. -/
def complete (s : Store) (id : Nat) (numbers : List Nat) : Store :=
  { s with object := some (numbers.flatMap fun n => ((s.uploads.getD id []).lookup n).getD []) }

def put (s : Store) (body : Bytes) : Store := { s with object := some body }

def abort (s : Store) (id : Nat) : Store := { s with aborted := s.aborted ++ [id] }

end Store

/-- What a call leaves behind, and whether its caller goes on. -/
def Call.run (call : Call) (s after : Store) : Store × Bool :=
  match call with
  | .returns => (after, true)
  | .raises true => (after, false)
  | .raises false => (s, false)

/-! ### The upload -/

inductive Failure where
  | akb (message : String) (statusCode : Nat)
  | raised
  deriving DecidableEq

structure Limits where
  partSize : Nat
  maxBytes : Nat
  declaredBytes : Option Nat

/-- The chunks of a body, and whether the iteration ends with them or raises. -/
structure Body where
  chunks : List Bytes
  ends : Bool

structure Writer where
  buf : Bytes
  received : Nat
  uploadId : Option Nat
  parts : List Nat
  store : Store

def Writer.start (store : Store) : Writer := ⟨[], 0, none, [], store⟩

/-- `_send_part` with an upload. -/
def Writer.sendTo (env : Env) (w : Writer) (id : Nat) : Writer × Option Failure :=
  let number := w.parts.length + 1
  let (store, returned) := (env.part number).run w.store (w.store.putPart id number w.buf)
  if returned then ({ w with store := store, parts := w.parts ++ [number], buf := [] }, none)
  else ({ w with store := store }, some .raised)

/-- `_send_part`. -/
def Writer.sendPart (env : Env) (w : Writer) : Writer × Option Failure :=
  match w.uploadId with
  | some id => w.sendTo env id
  | none =>
    let (store, returned) := env.create.run w.store w.store.create
    if returned then { w with store := store, uploadId := some w.store.uploads.length }.sendTo env w.store.uploads.length
    else ({ w with store := store }, some .raised)

/-- One chunk of the body. -/
def Writer.receive (env : Env) (limits : Limits) (w : Writer) (chunk : Bytes) : Writer × Option Failure :=
  if chunk = [] then (w, none)
  else if limits.maxBytes < w.received + chunk.length then
    ({ w with received := w.received + chunk.length }, some (.akb "Upload exceeds the maximum accepted size" 413))
  else if limits.partSize ≤ (w.buf ++ chunk).length then
    { w with received := w.received + chunk.length, buf := w.buf ++ chunk }.sendPart env
  else ({ w with received := w.received + chunk.length, buf := w.buf ++ chunk }, none)

def Writer.receiveAll (env : Env) (limits : Limits) (w : Writer) : List Bytes → Writer × Option Failure
  | [] => (w, none)
  | chunk :: chunks =>
    match w.receive env limits chunk with
    | (w, some failure) => (w, some failure)
    | (w, none) => w.receiveAll env limits chunks

/-- `multipart_complete` -/
def Writer.complete (env : Env) (w : Writer) (id : Nat) : Writer × Option Failure :=
  let (store, returned) := env.complete.run w.store (w.store.complete id w.parts)
  ({ w with store := store }, if returned then none else some .raised)

/-- What follows the last chunk. -/
def Writer.finish (env : Env) (limits : Limits) (w : Writer) : Writer × Option Failure :=
  if limits.declaredBytes.any (· ≠ w.received) then (w, some (.akb "Upload body did not match its declared length" 400))
  else
    match w.uploadId with
    | none =>
      let (store, returned) := env.put.run w.store (w.store.put w.buf)
      ({ w with store := store }, if returned then none else some .raised)
    | some id =>
      if w.buf = [] then w.complete env id
      else
        match w.sendTo env id with
        | (w, some failure) => (w, some failure)
        | (w, none) => w.complete env id

def Writer.write (env : Env) (limits : Limits) (w : Writer) (body : Body) : Writer × Option Failure :=
  match w.receiveAll env limits body.chunks with
  | (w, some failure) => (w, some failure)
  | (w, none) => if body.ends then w.finish env limits else (w, some .raised)

/-- `store_object_stream`: what it returns or raises, and the store behind it. An upload that it knows of is aborted when it raises. -/
def storeObjectStream (env : Env) (limits : Limits) (store : Store) (body : Body) : Except Failure Nat × Store :=
  match (Writer.start store).write env limits body with
  | (w, none) => (.ok w.received, w.store)
  | (w, some failure) => (.error failure, w.uploadId.elim w.store w.store.abort)

/-! ### The whole body or nothing -/

/-- A body that is returned for is stored, in parts of which all but the last are large enough. -/
structure Stored (limits : Limits) (before after : Store) (body : Body) (total : Nat) : Prop where
  total : total = body.chunks.flatten.length
  object : after.object = some body.chunks.flatten
  ends : body.ends
  within : body.chunks.flatten.length ≤ limits.maxBytes
  declared : ∀ d ∈ limits.declaredBytes, d = body.chunks.flatten.length
  parts : ∀ parts ∈ after.uploads.drop before.uploads.length, ∀ p ∈ parts.dropLast, limits.partSize ≤ p.2.length

/-- A body that is refused leaves the object, and each upload that was created is aborted. -/
structure Nothing (before after : Store) : Prop where
  object : after.object = before.object
  aborted : ∀ id, before.uploads.length ≤ id → id < after.uploads.length → id ∈ after.aborted

/-- The upload of a body stores it or nothing. -/
def StoresOrNothing (env : Env) (limits : Limits) (store : Store) (body : Body) : Prop :=
  (∀ total, (storeObjectStream env limits store body).1 = .ok total →
      Stored limits store (storeObjectStream env limits store body).2 body total) ∧
    ∀ failure, (storeObjectStream env limits store body).1 = .error failure →
      Nothing store (storeObjectStream env limits store body).2

/-- No call that decides what is stored both raises and takes effect. -/
structure Env.Settles (env : Env) : Prop where
  create : env.create ≠ .raises true
  put : env.put ≠ .raises true
  complete : env.create = .returns → env.part 1 = .returns → env.complete ≠ .raises true

/-! ### What is buffered and what is sent -/

variable {env : Env} {limits : Limits} {store : Store} {all : Bytes} {w : Writer} {least id : Nat} {sent : List (Nat × Bytes)}

/-- What is received is in the parts that were sent and in the buffer. -/
structure Buffered (env : Env) (least : Nat) (store : Store) (all : Bytes) (w : Writer) (sent : List (Nat × Bytes)) : Prop where
  received : w.received = all.length
  content : (sent.map Prod.snd).flatten ++ w.buf = all
  object : w.store.object = store.object
  uploads : w.store.uploads = w.uploadId.elim store.uploads fun _ => store.uploads ++ [sent]
  id : ∀ id ∈ w.uploadId, id = store.uploads.length ∧ env.create = .returns
  numbers : sent.map Prod.fst = List.range' 1 sent.length
  parts : w.parts = sent.map Prod.fst
  sizes : ∀ p ∈ sent, least ≤ p.2.length
  first : sent ≠ [] → env.part 1 = .returns

/-- The same before the last chunk: an upload has its first part, and the maximum is kept. -/
structure Receiving (env : Env) (limits : Limits) (store : Store) (all : Bytes) (w : Writer) (sent : List (Nat × Bytes)) : Prop
    extends Buffered env limits.partSize store all w sent where
  fresh : w.uploadId = none ↔ sent = []
  within : all.length ≤ limits.maxBytes

/-- Nothing is changed at the key but for an upload that the writer knows of. -/
structure Untouched (store : Store) (w : Writer) : Prop where
  object : w.store.object = store.object
  uploads : w.store.uploads.length ≤ store.uploads.length ∨ w.uploadId = some store.uploads.length ∧
    w.store.uploads.length ≤ store.uploads.length + 1

theorem Untouched.nothing (h : Untouched store w) : Nothing store (w.uploadId.elim w.store w.store.abort) := by
  cases hid : w.uploadId with
  | none =>
    rcases h.uploads with hle | ⟨hsome, -⟩
    · exact ⟨h.object, fun id hge hlt => absurd hlt (Nat.not_lt.mpr (Nat.le_trans hle hge))⟩
    · rw [hid] at hsome
      cases hsome
  | some i =>
    refine ⟨h.object, fun id hge hlt => ?_⟩
    have hlt' : id < w.store.uploads.length := hlt
    rcases h.uploads with hle | ⟨hsome, hle⟩
    · omega
    · rw [hid] at hsome
      have heq : i = store.uploads.length := Option.some.inj hsome
      have hid' : id = i := by omega
      rw [hid']
      exact List.mem_append_right _ (List.mem_singleton_self i)

theorem Receiving.start (env : Env) (limits : Limits) (store : Store) : Receiving env limits store [] (Writer.start store) [] := by
  refine ⟨?_, ?_, Nat.zero_le _⟩
  · constructor <;> simp [Writer.start]
  · exact ⟨fun _ => rfl, fun _ => rfl⟩

theorem Buffered.untouched (h : Buffered env least store all w sent) : Untouched store w := by
  refine ⟨h.object, ?_⟩
  rw [h.uploads]
  cases hid : w.uploadId with
  | none => exact .inl (Nat.le_refl _)
  | some id => exact .inr ⟨congrArg some (h.id id hid).1, by simp⟩

theorem modify_last {α : Type} (l : List α) (x : α) (f : α → α) : (l ++ [x]).modify l.length f = l ++ [f x] := by
  induction l with
  | nil => rfl
  | cons y l ih => rw [List.cons_append, List.length_cons, List.modify_succ_cons, ih, List.cons_append]

/-! ### One part -/

theorem Writer.sendTo_of_returns (h : env.part (w.parts.length + 1) = .returns) :
    w.sendTo env id = ({ w with
      store := w.store.putPart id (w.parts.length + 1) w.buf, parts := w.parts ++ [w.parts.length + 1], buf := [] }, none) := by
  simp only [sendTo, h, Call.run, if_true]

theorem Writer.sendTo_of_raises {applied : Bool} (h : env.part (w.parts.length + 1) = .raises applied) :
    w.sendTo env id =
      ({ w with store := if applied then w.store.putPart id (w.parts.length + 1) w.buf else w.store }, some .raised) := by
  cases applied <;> simp [sendTo, h, Call.run]

theorem Buffered.putPart_uploads (h : Buffered env least store all w sent) (hid : w.uploadId = some id) (part : Nat × Bytes) :
    (w.store.putPart id part.1 part.2).uploads = store.uploads ++ [sent ++ [part]] := by
  rw [Store.putPart, h.uploads, hid, Option.elim_some, (h.id id hid).1, modify_last]

theorem Buffered.length_parts (h : Buffered env least store all w sent) : w.parts.length = sent.length := by
  rw [h.parts, List.length_map]

/-- A part that is sent takes the buffer with it. -/
theorem Buffered.accepted (h : Buffered env least store all w sent) (hid : w.uploadId = some id) (hsize : least ≤ w.buf.length)
    (hpart : env.part (sent.length + 1) = .returns) :
    ∃ w', w.sendTo env id = (w', none) ∧ w'.buf = [] ∧ w'.uploadId = some id ∧
      Buffered env least store all w' (sent ++ [(sent.length + 1, w.buf)]) := by
  have hpart' : env.part (w.parts.length + 1) = .returns := by rwa [h.length_parts]
  refine ⟨_, Writer.sendTo_of_returns hpart', rfl, hid, ?_⟩
  rw [h.length_parts]
  constructor
  case received => exact h.received
  case content => simpa using h.content
  case object => exact h.object
  case uploads =>
    change (w.store.putPart id (sent.length + 1) w.buf).uploads = w.uploadId.elim _ _
    rw [h.putPart_uploads hid (sent.length + 1, w.buf), hid, Option.elim_some]
  case id => exact h.id
  case numbers =>
    rw [List.map_append, h.numbers, List.length_append, List.length_singleton, List.range'_concat]
    simp [Nat.add_comm]
  case parts => rw [List.map_append, h.parts, List.map_singleton]
  case sizes =>
    intro p hp
    rcases List.mem_append.mp hp with hp | hp
    · exact h.sizes p hp
    · rw [List.mem_singleton.mp hp]
      exact hsize
  case first =>
    intro _
    by_cases hnil : sent = []
    · rwa [hnil] at hpart
    · exact h.first hnil

theorem Buffered.refused (h : Buffered env least store all w sent) (hid : w.uploadId = some id)
    (hpart : env.part (sent.length + 1) ≠ .returns) :
    ∃ w', w.sendTo env id = (w', some .raised) ∧ Untouched store w' := by
  cases hcall : env.part (sent.length + 1) with
  | returns => exact absurd hcall hpart
  | raises applied =>
    rw [← h.length_parts] at hcall
    refine ⟨_, Writer.sendTo_of_raises hcall, ?_⟩
    cases applied with
    | false => exact h.untouched
    | true =>
      refine ⟨h.object, .inr ⟨hid.trans (congrArg some (h.id id hid).1), ?_⟩⟩
      have hlength := congrArg List.length (h.putPart_uploads hid (w.parts.length + 1, w.buf))
      rw [List.length_append, List.length_singleton] at hlength
      exact Nat.le_of_eq hlength

/-- A full buffer is sent, or nothing is changed but for an upload that the writer knows of. -/
theorem Buffered.sendPart (hcreate : env.create ≠ .raises true) (h : Buffered env least store all w sent)
    (hfresh : w.uploadId = none → sent = []) (hsize : least ≤ w.buf.length) :
    (∃ w' id part, w.sendPart env = (w', none) ∧ w'.uploadId = some id ∧ Buffered env least store all w' (sent ++ [part])) ∨
      ∃ w', w.sendPart env = (w', some .raised) ∧ Untouched store w' := by
  cases hid : w.uploadId with
  | some id =>
    have hsend : w.sendPart env = w.sendTo env id := by rw [Writer.sendPart, hid]
    rw [hsend]
    by_cases hpart : env.part (sent.length + 1) = .returns
    · obtain ⟨w', hw, -, hid', h'⟩ := h.accepted hid hsize hpart
      exact .inl ⟨w', id, _, hw, hid', h'⟩
    · exact .inr (h.refused hid hpart)
  | none =>
    have huploads : w.store.uploads = store.uploads := by rw [h.uploads, hid, Option.elim_none]
    cases hcall : env.create with
    | raises applied =>
      cases applied with
      | true => exact absurd hcall hcreate
      | false =>
        refine .inr ⟨w, ?_, h.untouched⟩
        unfold Writer.sendPart
        split
        · next id hsome =>
          rw [hid] at hsome
          cases hsome
        · rw [hcall]
          rfl
    | returns =>
      have hsend : w.sendPart env = ({ w with store := w.store.create, uploadId := some w.store.uploads.length } : Writer).sendTo env
          w.store.uploads.length := by
        simp only [Writer.sendPart, hid, hcall, Call.run, if_true]
      have hb : Buffered env least store all { w with store := w.store.create, uploadId := some w.store.uploads.length } sent := by
        constructor
        case received => exact h.received
        case content => exact h.content
        case object => exact h.object
        case uploads =>
          change w.store.uploads ++ [[]] = store.uploads ++ [sent]
          rw [huploads, hfresh hid]
        case id =>
          intro id heq
          cases heq
          exact ⟨congrArg List.length huploads, hcall⟩
        case numbers => exact h.numbers
        case parts => exact h.parts
        case sizes => exact h.sizes
        case first => exact h.first
      rw [hsend]
      by_cases hpart : env.part (sent.length + 1) = .returns
      · obtain ⟨w', hw, -, hid', h'⟩ := hb.accepted rfl hsize hpart
        exact .inl ⟨w', _, _, hw, hid', h'⟩
      · exact .inr (hb.refused rfl hpart)

/-! ### The chunks -/

theorem Receiving.chunk (h : Receiving env limits store all w sent) {chunk : Bytes}
    (hwithin : w.received + chunk.length ≤ limits.maxBytes) :
    Receiving env limits store (all ++ chunk) { w with received := w.received + chunk.length, buf := w.buf ++ chunk } sent := by
  have hlength : (all ++ chunk).length = w.received + chunk.length := by rw [List.length_append, h.received]
  refine ⟨⟨hlength.symm, ?_, h.object, h.uploads, h.id, h.numbers, h.parts, h.sizes, h.first⟩, h.fresh, Nat.le_trans (Nat.le_of_eq hlength) hwithin⟩
  rw [← List.append_assoc, h.content]

/-- One chunk is taken into the buffer or the parts, or nothing is changed. -/
theorem Receiving.receive (hcreate : env.create ≠ .raises true) (h : Receiving env limits store all w sent) (chunk : Bytes) :
    (∃ w' sent', w.receive env limits chunk = (w', none) ∧ Receiving env limits store (all ++ chunk) w' sent') ∨
      ∃ w' failure, w.receive env limits chunk = (w', some failure) ∧ Untouched store w' := by
  unfold Writer.receive
  by_cases hnil : chunk = []
  · rw [if_pos hnil, hnil, List.append_nil]
    exact .inl ⟨w, sent, rfl, h⟩
  rw [if_neg hnil]
  by_cases hmax : limits.maxBytes < w.received + chunk.length
  · rw [if_pos hmax]
    exact .inr ⟨_, _, rfl, h.untouched.object, h.untouched.uploads⟩
  rw [if_neg hmax]
  have hb := h.chunk (Nat.not_lt.mp hmax)
  by_cases hfull : limits.partSize ≤ (w.buf ++ chunk).length
  · rw [if_pos hfull]
    rcases hb.toBuffered.sendPart hcreate hb.fresh.mp hfull with ⟨w', id, part, hw, hid, h'⟩ | ⟨w', hw, h'⟩
    · refine .inl ⟨w', _, hw, h', ?_, hb.within⟩
      rw [hid]
      exact ⟨fun hnone => (Option.some_ne_none _ hnone).elim, fun hnil => absurd hnil (List.append_ne_nil_of_right_ne_nil _ (List.cons_ne_nil _ _))⟩
    · exact .inr ⟨w', _, hw, h'⟩
  · rw [if_neg hfull]
    exact .inl ⟨_, sent, rfl, hb⟩

theorem Receiving.receiveAll (hcreate : env.create ≠ .raises true) (chunks : List Bytes) :
    ∀ {w : Writer} {all : Bytes} {sent : List (Nat × Bytes)}, Receiving env limits store all w sent →
      (∃ w' sent', w.receiveAll env limits chunks = (w', none) ∧ Receiving env limits store (all ++ chunks.flatten) w' sent') ∨
        ∃ w' failure, w.receiveAll env limits chunks = (w', some failure) ∧ Untouched store w' := by
  induction chunks with
  | nil =>
    intro w all sent h
    refine .inl ⟨w, sent, rfl, ?_⟩
    rwa [List.flatten_nil, List.append_nil]
  | cons chunk chunks ih =>
    intro w all sent h
    rw [Writer.receiveAll]
    rcases h.receive hcreate chunk with ⟨w', sent', hw, h'⟩ | ⟨w', failure, hw, h'⟩
    · rw [hw, List.flatten_cons, ← List.append_assoc]
      exact ih h'
    · rw [hw]
      exact .inr ⟨w', failure, rfl, h'⟩

/-! ### The end of the body -/

/-- The parts that are named hold the body. -/
theorem flatMap_lookup {l : List (Nat × Bytes)} (hnodup : (l.map Prod.fst).Nodup) :
    ((l.map Prod.fst).flatMap fun n => (l.lookup n).getD []) = (l.map Prod.snd).flatten := by
  induction l with
  | nil => rfl
  | cons p l ih =>
    obtain ⟨n, body⟩ := p
    rw [List.map_cons, List.nodup_cons] at hnodup
    have htail : ∀ m ∈ l.map Prod.fst, (((n, body) :: l).lookup m).getD [] = (l.lookup m).getD [] := by
      intro m hm
      have hne : (m == n) = false := beq_false_of_ne fun heq => hnodup.1 (heq ▸ hm)
      rw [List.lookup_cons, hne]
    rw [List.map_cons, List.flatMap_cons, List.lookup_cons_self, List.map_cons, List.flatten_cons, Option.getD_some,
      List.flatMap_congr htail, ih hnodup.2]

/-- What a write leaves: the body with its parts, or nothing. -/
structure Ends (limits : Limits) (store : Store) (all : Bytes) (r : Writer × Option Failure) : Prop where
  stored : r.2 = none → r.1.received = all.length ∧ r.1.store.object = some all ∧ all.length ≤ limits.maxBytes ∧
    (∀ d ∈ limits.declaredBytes, d = all.length) ∧
    ∀ parts ∈ r.1.store.uploads.drop store.uploads.length, ∀ p ∈ parts.dropLast, limits.partSize ≤ p.2.length
  nothing : ∀ failure, r.2 = some failure → Untouched store r.1

theorem Ends.of_raises {failure : Failure} (h : Untouched store w) : Ends limits store all (w, some failure) :=
  ⟨fun hnone => (Option.some_ne_none _ hnone).elim, fun _ _ => h⟩

theorem Buffered.complete (h : Buffered env least store all w sent) (hid : w.uploadId = some id) (hbuf : w.buf = [])
    (hcall : env.complete ≠ .raises true) (hwithin : all.length ≤ limits.maxBytes)
    (hdeclared : ∀ d ∈ limits.declaredBytes, d = all.length) (hsizes : ∀ p ∈ sent.dropLast, limits.partSize ≤ p.2.length) :
    Ends limits store all (w.complete env id) := by
  have huploads : w.store.uploads = store.uploads ++ [sent] := by rw [h.uploads, hid, Option.elim_some]
  cases hcomplete : env.complete with
  | raises applied =>
    cases applied with
    | true => exact absurd hcomplete hcall
    | false =>
      have hw : w.complete env id = (w, some .raised) := by simp [Writer.complete, hcomplete, Call.run]
      rw [hw]
      exact .of_raises h.untouched
  | returns =>
    have hw : w.complete env id = ({ w with store := w.store.complete id w.parts }, none) := by
      simp [Writer.complete, hcomplete, Call.run]
    have hobject : (w.store.complete id w.parts).object = some all := by
      have hget : w.store.uploads.getD id [] = sent := by
        rw [huploads, (h.id id hid).1, List.getD_eq_getElem?_getD, List.getElem?_concat_length, Option.getD_some]
      have hnodup : (sent.map Prod.fst).Nodup := by
        rw [h.numbers]
        exact List.nodup_range'
      rw [Store.complete, hget, h.parts, flatMap_lookup hnodup, ← h.content, hbuf, List.append_nil]
    rw [hw]
    refine ⟨fun _ => ⟨h.received, hobject, hwithin, hdeclared, ?_⟩, fun _ hsome => (Option.some_ne_none _ hsome.symm).elim⟩
    intro parts hparts p hp
    have hdrop : parts ∈ (store.uploads ++ [sent]).drop store.uploads.length := by
      rw [← huploads]
      exact hparts
    rw [List.drop_left, List.mem_singleton] at hdrop
    rw [hdrop] at hp
    exact hsizes p hp

theorem Buffered.weaken (h : Buffered env least store all w sent) : Buffered env 0 store all w sent :=
  ⟨h.received, h.content, h.object, h.uploads, h.id, h.numbers, h.parts, fun _ _ => Nat.zero_le _, h.first⟩

theorem Receiving.finish (hsettles : env.Settles) (h : Receiving env limits store all w sent) :
    Ends limits store all (w.finish env limits) := by
  unfold Writer.finish
  by_cases hlength : limits.declaredBytes.any (· ≠ w.received)
  · rw [if_pos hlength]
    exact .of_raises h.untouched
  rw [if_neg hlength]
  have hdeclared : ∀ d ∈ limits.declaredBytes, d = all.length := by
    intro d hd
    rw [Option.mem_def] at hd
    simpa [hd, h.received] using hlength
  cases hid : w.uploadId with
  | none =>
    have hsent : sent = [] := h.fresh.mp hid
    have hall : w.buf = all := by simpa [hsent] using h.content
    have huploads : w.store.uploads = store.uploads := by rw [h.uploads, hid, Option.elim_none]
    cases hput : env.put with
    | raises applied =>
      cases applied with
      | true => exact absurd hput hsettles.put
      | false => exact .of_raises ⟨h.object, .inl (Nat.le_of_eq (congrArg List.length huploads))⟩
    | returns =>
      refine ⟨fun _ => ⟨h.received, congrArg some hall, h.within, hdeclared, ?_⟩, fun _ hsome => (Option.some_ne_none _ hsome.symm).elim⟩
      intro parts hparts
      have hdrop : parts ∈ w.store.uploads.drop store.uploads.length := hparts
      rw [huploads, List.drop_length] at hdrop
      cases hdrop
  | some id =>
    have hne : sent ≠ [] := fun hnil => by
      rw [h.fresh.mpr hnil] at hid
      cases hid
    have hcomplete := hsettles.complete (h.id id hid).2 (h.first hne)
    by_cases hbuf : w.buf = []
    · simp only [if_pos hbuf]
      exact h.toBuffered.complete hid hbuf hcomplete h.within hdeclared fun p hp => h.sizes p (List.dropLast_subset _ hp)
    · simp only [if_neg hbuf]
      by_cases hpart : env.part (sent.length + 1) = .returns
      · obtain ⟨w', hw, hbuf', hid', h'⟩ := h.weaken.accepted hid (Nat.zero_le _) hpart
        rw [hw]
        refine h'.complete hid' hbuf' hcomplete h.within hdeclared fun p hp => ?_
        rw [List.dropLast_concat] at hp
        exact h.sizes p hp
      · obtain ⟨w', hw, h'⟩ := h.toBuffered.refused hid hpart
        rw [hw]
        exact .of_raises h'

theorem ends_write (hsettles : env.Settles) (limits : Limits) (store : Store) (body : Body) :
    Ends limits store body.chunks.flatten ((Writer.start store).write env limits body) ∧
      (((Writer.start store).write env limits body).2 = none → body.ends) := by
  unfold Writer.write
  rcases (Receiving.start env limits store).receiveAll hsettles.create body.chunks with ⟨w, sent, hw, h⟩ | ⟨w, failure, hw, h⟩
  · rw [hw]
    by_cases hends : body.ends
    · simp only [if_pos hends]
      exact ⟨h.finish hsettles, fun _ => hends⟩
    · simp only [if_neg hends]
      exact ⟨.of_raises h.untouched, fun hnone => (Option.some_ne_none _ hnone).elim⟩
  · rw [hw]
    exact ⟨.of_raises h, fun hnone => (Option.some_ne_none _ hnone).elim⟩

/-- An upload stores its body or nothing, whatever the body and the limits, if and only if no call raises and still takes effect. -/
theorem storesOrNothing_iff (env : Env) :
    (∀ limits store body, StoresOrNothing env limits store body) ↔ env.Settles := by
  constructor
  · intro h
    constructor
    case create =>
      intro hcreate
      have hnothing := (h ⟨1, 1, none⟩ ⟨none, [], []⟩ ⟨[[0]], true⟩).2 .raised (by
        simp [storeObjectStream, Writer.start, Writer.write, Writer.receiveAll, Writer.receive, Writer.sendPart, hcreate, Call.run])
      have habort := hnothing.aborted 0 (Nat.le_refl _) (by
        simp [storeObjectStream, Writer.start, Writer.write, Writer.receiveAll, Writer.receive, Writer.sendPart, hcreate, Call.run,
          Store.create])
      simp [storeObjectStream, Writer.start, Writer.write, Writer.receiveAll, Writer.receive, Writer.sendPart, hcreate, Call.run,
        Store.create] at habort
    case put =>
      intro hput
      have hnothing := (h ⟨1, 1, none⟩ ⟨none, [], []⟩ ⟨[], true⟩).2 .raised (by
        simp [storeObjectStream, Writer.start, Writer.write, Writer.receiveAll, Writer.finish, hput, Call.run])
      have hobject := hnothing.object
      simp [storeObjectStream, Writer.start, Writer.write, Writer.receiveAll, Writer.finish, hput, Call.run, Store.put] at hobject
    case complete =>
      intro hcreate hpart hcomplete
      have hnothing := (h ⟨1, 1, none⟩ ⟨none, [], []⟩ ⟨[[0]], true⟩).2 .raised (by
        simp [storeObjectStream, Writer.start, Writer.write, Writer.receiveAll, Writer.receive, Writer.sendPart, Writer.sendTo,
          Writer.finish, Writer.complete, hcreate, hpart, hcomplete, Call.run])
      have hobject := hnothing.object
      simp [storeObjectStream, Writer.start, Writer.write, Writer.receiveAll, Writer.receive, Writer.sendPart, Writer.sendTo,
        Writer.finish, Writer.complete, hcreate, hpart, hcomplete, Call.run, Store.complete, Store.abort] at hobject
  · intro hsettles limits store body
    obtain ⟨h, hends⟩ := ends_write hsettles limits store body
    unfold StoresOrNothing storeObjectStream
    generalize (Writer.start store).write env limits body = r at h hends
    obtain ⟨w, failure⟩ := r
    cases failure with
    | none =>
      obtain ⟨hreceived, hobject, hwithin, hdeclared, hparts⟩ := h.stored rfl
      refine ⟨fun total hok => ?_, fun failure herror => by cases herror⟩
      cases hok
      exact ⟨hreceived, hobject, hends rfl, hwithin, hdeclared, hparts⟩
    | some failure =>
      refine ⟨fun total hok => (by cases hok), fun failure' _ => ?_⟩
      exact (h.nothing failure rfl).nothing

/-- A request that is cancelled while its upload is created: the upload is created, and nobody aborts it. -/
theorem cancelled_create_leaks :
    ¬ StoresOrNothing ⟨.raises true, fun _ => .returns, .returns, .returns⟩ ⟨2, 8, none⟩ ⟨none, [], []⟩ ⟨[[1, 2], [3]], true⟩ := by
  intro h
  exact absurd ((h.2 .raised rfl).aborted 0 (by decide) (by decide)) (by decide)

end Akb.Files
