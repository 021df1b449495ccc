import Akb.Library.Fallible
import Akb.Library.Windows

/-! The calls of the embeddings endpoint for a list of texts, in batches and text by text, and the
vectors that come back. -/
namespace Akb.Embeddings
open Akb.Library

/-- An entry of `data`: its index where that is an integer, its vector where it has one. -/
structure Item (α : Type) where
  index : Option Int
  embedding : Option (List α)

/-- What becomes of one call. -/
inductive Reply (α : Type) where
  | noIdentity
  /-- A connect error, a timeout, a URL without a protocol. -/
  | unreachable
  /-- Any other exception of the client. -/
  | raises
  /-- A response; its items are none where the body is no JSON with a list of objects as `data`. -/
  | response (statusCode : Nat) (items : Option (List (Item α)))

inductive Status where
  | ok
  | transient
  | permanent
  | rejected
  deriving DecidableEq

variable {α : Type}

/-- `by_index`; none where an index is no integer or comes twice, or a vector is missing. -/
def byIndex : List (Item α) → List (Int × List α) → Option (List (Int × List α))
  | [], found => some found
  | item :: items, found =>
    match item.index, item.embedding with
    | some idx, some embedding =>
      if (found.map Prod.fst).contains idx then none else byIndex items (found ++ [(idx, embedding)])
    | _, _ => none

/-- The vectors of `n` inputs in their order; none where the indexes are not those of the inputs. -/
def aligned (n : Nat) (found : List (Int × List α)) : Option (List (List α)) :=
  if (∀ e ∈ found, 0 ≤ e.1 ∧ e.1 < n) ∧ ∀ i < n, ((i : Int) ∈ found.map Prod.fst) then
    some ((List.range n).map (fun (i : Nat) => (found.lookup (i : Int)).getD []))
  else none

/-- `_embed_call` for a batch of `n` inputs; `hardMode` is the governance mode `platform_hard`. -/
def embedCall (hardMode : Bool) (n : Nat) : Reply α → Except Unit (Status × Option (List (List α)))
  | .noIdentity => .ok (.transient, none)
  | .unreachable => .ok (.transient, none)
  | .raises => .error ()
  | .response statusCode items =>
    if 500 ≤ statusCode ∨ (hardMode = true ∧ statusCode ∈ [408, 409, 425, 429]) then .ok (.transient, none)
    else if 400 ≤ statusCode then
      .ok (if hardMode = true ∧ statusCode ∉ [400, 413] then .rejected else .permanent, none)
    else
      match (items.bind (fun items => byIndex items [])).bind (aligned n) with
      | some embeddings => .ok (.ok, some embeddings)
      | none => .ok (.transient, none)

/-- The endpoint: what the call with a number answers to a batch. -/
abbrev Api (τ α : Type) := Nat → List τ → Reply α

variable {τ : Type}

/-- The batches that have been sent, and the vectors so far. -/
structure Sent (τ α : Type) where
  calls : List (List τ)
  out : List (List α)

/-- The vector of a text that is sent alone. -/
def soleVector : Status × Option (List (List α)) → List α
  | (.ok, some [embedding]) => embedding
  | _ => []

def sendEach (api : Api τ α) (hardMode : Bool) : Sent τ α → List τ → Except Unit (Sent τ α)
  | sent, [] => .ok sent
  | sent, text :: texts => do
    let answer ← embedCall hardMode 1 (api sent.calls.length [text])
    sendEach api hardMode ⟨sent.calls ++ [[text]], sent.out ++ [soleVector answer]⟩ texts

/-- One batch, again text by text where the call failed for good or had the wrong shape. -/
def sendBatch (api : Api τ α) (hardMode : Bool) (sent : Sent τ α) (batch : List τ) : Except Unit (Sent τ α) := do
  let answer ← embedCall hardMode batch.length (api sent.calls.length batch)
  let asked : Sent τ α := ⟨sent.calls ++ [batch], sent.out⟩
  match answer with
  | (.ok, some embeddings) =>
    if embeddings.length = batch.length then .ok { asked with out := sent.out ++ embeddings }
    else sendEach api hardMode asked batch
  | (.transient, _) => .ok { asked with out := sent.out ++ batch.map (fun _ => []) }
  | (.rejected, _) => .ok { asked with out := sent.out ++ batch.map (fun _ => []) }
  | _ => sendEach api hardMode asked batch

def sendBatches (api : Api τ α) (hardMode : Bool) : Sent τ α → List (List τ) → Except Unit (Sent τ α)
  | sent, [] => .ok sent
  | sent, batch :: batches => do
    let sent ← sendBatch api hardMode sent batch
    sendBatches api hardMode sent batches

/-- `generate_embeddings`; the endpoint may not be configured. -/
def generateEmbeddings (api : Option (Api τ α)) (hardMode : Bool) (texts : List τ) : Except Unit (Sent τ α) :=
  match api with
  | none => .ok ⟨[], texts.map (fun _ => [])⟩
  | some api => sendBatches api hardMode ⟨[], []⟩ (Windows.windows 32 32 texts.length texts)

/-! ### What a call answers -/

/-- The reply has the vector for the input with an index. -/
def Reply.Has (reply : Reply α) (j : Nat) (vector : List α) : Prop :=
  ∃ statusCode items, reply = .response statusCode (some items) ∧ statusCode < 400 ∧
    ∃ item ∈ items, item.index = some (j : Int) ∧ item.embedding = some vector

theorem mem_byIndex {items : List (Item α)} {found all : List (Int × List α)} (h : byIndex items found = some all) :
    ∀ e ∈ all, e ∈ found ∨ ∃ item ∈ items, item.index = some e.1 ∧ item.embedding = some e.2 := by
  induction items generalizing found with
  | nil =>
    cases h
    exact fun e he => Or.inl he
  | cons item items ih =>
    rw [byIndex] at h
    split at h
    · rename_i idx embedding hidx hembedding
      split at h
      · cases h
      · intro e he
        rcases ih h e he with hfound | ⟨other, hother, hrest⟩
        · rcases List.mem_append.mp hfound with hfound | hfound
          · exact Or.inl hfound
          · rw [List.mem_singleton.mp hfound]
            exact Or.inr ⟨item, List.mem_cons_self, hidx, hembedding⟩
        · exact Or.inr ⟨other, List.mem_cons_of_mem item hother, hrest⟩
    · cases h

theorem mem_of_lookup {found : List (Int × List α)} {idx : Int} {vector : List α} (h : found.lookup idx = some vector) :
    (idx, vector) ∈ found := by
  induction found with
  | nil => cases h
  | cons e found ih =>
    rw [List.lookup_cons] at h
    split at h
    · rename_i heq
      cases h
      rw [beq_iff_eq.mp heq]
      exact List.mem_cons_self
    · exact List.mem_cons_of_mem e (ih h)

theorem aligned_spec {n : Nat} {found : List (Int × List α)} {embeddings : List (List α)}
    (h : aligned n found = some embeddings) :
    embeddings.length = n ∧ ∀ (j : Nat) (vector : List α), embeddings[j]? = some vector → ((j : Int), vector) ∈ found := by
  rw [aligned] at h
  split at h
  · rename_i hindexes
    cases h
    refine ⟨by simp, fun j vector hj => ?_⟩
    obtain ⟨hlt, hvector⟩ := List.getElem?_eq_some_iff.mp hj
    rw [List.length_map, List.length_range] at hlt
    obtain ⟨e, he, hidx⟩ := List.mem_map.mp (hindexes.2 j hlt)
    cases hlook : found.lookup (j : Int) with
    | none => exact absurd hidx.symm (by simpa using List.lookup_eq_none_iff.mp hlook e he)
    | some other =>
      rw [List.getElem_map, List.getElem_range, hlook] at hvector
      exact hvector ▸ mem_of_lookup hlook
  · cases h

/-- A call that succeeds has one vector for each input, which the reply has for it. -/
theorem embedCall_ok {hardMode : Bool} {n : Nat} {reply : Reply α} {embeddings : List (List α)}
    (h : embedCall hardMode n reply = .ok (.ok, some embeddings)) :
    embeddings.length = n ∧ ∀ (j : Nat) (vector : List α), embeddings[j]? = some vector → reply.Has j vector := by
  cases reply with
  | noIdentity => cases h
  | unreachable => cases h
  | raises => cases h
  | response statusCode items =>
    rw [embedCall] at h
    split at h
    · cases h
    split at h
    · split at h <;> cases h
    rename_i hcode
    split at h
    · rename_i found hfound
      cases h
      obtain ⟨found, hbound, haligned⟩ := Option.bind_eq_some_iff.mp hfound
      obtain ⟨items', rfl, hindex⟩ := Option.bind_eq_some_iff.mp hbound
      obtain ⟨hlen, hvectors⟩ := aligned_spec haligned
      refine ⟨hlen, fun j vector hj => ⟨statusCode, items', rfl, not_le.mp hcode, ?_⟩⟩
      rcases mem_byIndex hindex _ (hvectors j vector hj) with hnone | hitem
      · cases hnone
      · exact hitem
    · cases h

/-! ### What has come back -/

/-- A vector is empty, or one that some call has returned for its text. -/
def Vouched (api : Api τ α) (calls : List (List τ)) (text : τ) (vector : List α) : Prop :=
  vector = [] ∨ ∃ c batch j, calls[c]? = some batch ∧ batch[j]? = some text ∧ (api c batch).Has j vector

theorem Vouched.more {api : Api τ α} {calls : List (List τ)} {text : τ} {vector : List α} (h : Vouched api calls text vector)
    (later : List (List τ)) : Vouched api (calls ++ later) text vector := by
  refine h.imp id fun h => ?_
  obtain ⟨c, batch, j, hc, hrest⟩ := h
  exact ⟨c, batch, j, by rw [List.getElem?_append_left (List.getElem?_eq_some_iff.mp hc).1, hc], hrest⟩

/-- The vectors so far are those of the texts so far. -/
def Sent.Covers (api : Api τ α) (sent : Sent τ α) (texts : List τ) : Prop :=
  List.Forall₂ (Vouched api sent.calls) texts sent.out

variable {api : Api τ α} {hardMode : Bool} {sent sent' : Sent τ α} {texts : List τ}

theorem covers_asked (h : sent.Covers api texts) (batch : List τ) :
    Sent.Covers api ⟨sent.calls ++ [batch], sent.out⟩ texts := h.imp fun _ _ hv => hv.more [batch]

theorem forall₂_append {R : τ → List α → Prop} {xs ys : List τ} {us vs : List (List α)} (h : List.Forall₂ R xs us)
    (h' : List.Forall₂ R ys vs) : List.Forall₂ R (xs ++ ys) (us ++ vs) := by
  induction h with
  | nil => exact h'
  | cons hx _ ih => exact .cons hx ih

theorem soleVector_vouched {text : τ} {answer : Status × Option (List (List α))}
    (h : embedCall hardMode 1 (api sent.calls.length [text]) = .ok answer) :
    Vouched api (sent.calls ++ [[text]]) text (soleVector answer) := by
  rw [Vouched]
  rcases answer with ⟨status, embeddings⟩
  cases status with
  | ok =>
    cases embeddings with
    | none => exact Or.inl rfl
    | some embeddings =>
      obtain ⟨hlen, hvectors⟩ := embedCall_ok h
      obtain ⟨vector, rfl⟩ := List.length_eq_one_iff.mp hlen
      exact Or.inr ⟨sent.calls.length, [text], 0, by simp, rfl, hvectors 0 vector rfl⟩
  | transient => exact Or.inl rfl
  | permanent => exact Or.inl rfl
  | rejected => exact Or.inl rfl

theorem sendEach_covers {batch : List τ} (h : sendEach api hardMode sent batch = .ok sent') (hc : sent.Covers api texts) :
    sent'.Covers api (texts ++ batch) := by
  induction batch generalizing sent texts with
  | nil =>
    cases h
    rwa [List.append_nil]
  | cons text batch ih =>
    obtain ⟨answer, hanswer, hrest⟩ := bind_eq_ok.mp h
    rw [List.append_cons]
    exact ih hrest (forall₂_append (covers_asked hc [text]) (.cons (soleVector_vouched hanswer) .nil))

/-- A failed batch leaves an empty vector for each of its texts. -/
theorem covers_failed (hc : sent.Covers api texts) (batch : List τ) :
    Sent.Covers api ⟨sent.calls, sent.out ++ batch.map (fun _ => [])⟩ (texts ++ batch) := by
  refine forall₂_append hc ?_
  clear hc
  induction batch with
  | nil => exact .nil
  | cons text batch ih => exact .cons (Or.inl rfl) ih

theorem sendBatch_covers {batch : List τ} (h : sendBatch api hardMode sent batch = .ok sent') (hc : sent.Covers api texts) :
    sent'.Covers api (texts ++ batch) := by
  obtain ⟨⟨status, embeddings⟩, hanswer, hrest⟩ := bind_eq_ok.mp h
  have hasked := covers_asked hc batch
  cases status with
  | transient =>
    cases hrest
    exact covers_failed hasked batch
  | rejected =>
    cases hrest
    exact covers_failed hasked batch
  | permanent => exact sendEach_covers hrest hasked
  | ok =>
    cases embeddings with
    | none => exact sendEach_covers hrest hasked
    | some embeddings =>
      obtain ⟨hlen, hvectors⟩ := embedCall_ok hanswer
      simp only [hlen, if_true] at hrest
      cases hrest
      refine forall₂_append hasked (List.forall₂_iff_get.mpr ⟨hlen.symm, fun j h₁ h₂ => Or.inr ?_⟩)
      refine ⟨sent.calls.length, batch, j, by simp, List.getElem?_eq_getElem h₁, hvectors j _ ?_⟩
      exact List.getElem?_eq_getElem h₂

theorem sendBatches_covers {batches : List (List τ)} (h : sendBatches api hardMode sent batches = .ok sent')
    (hc : sent.Covers api texts) : sent'.Covers api (texts ++ batches.flatten) := by
  induction batches generalizing sent texts with
  | nil =>
    cases h
    rwa [List.flatten_nil, List.append_nil]
  | cons batch batches ih =>
    obtain ⟨sent₁, hbatch, hrest⟩ := bind_eq_ok.mp h
    rw [List.flatten_cons, ← List.append_assoc]
    exact ih hrest (sendBatch_covers hbatch hc)

/-- The vectors that come back, if no error does, are as many as the texts, and each is empty or one
that some call has returned for its text. -/
theorem embeddings_aligned (api : Option (Api τ α)) (hardMode : Bool) (texts : List τ) (sent : Sent τ α)
    (h : generateEmbeddings api hardMode texts = .ok sent) :
    sent.out.length = texts.length ∧ ∀ (i : Nat) (text : τ) (vector : List α), texts[i]? = some text →
      sent.out[i]? = some vector → vector = [] ∨ ∃ api' ∈ api, Vouched api' sent.calls text vector := by
  cases api with
  | none =>
    cases h
    refine ⟨List.length_map .., fun i text vector _ hi => Or.inl ?_⟩
    obtain ⟨_, -, hvector⟩ := List.mem_map.mp (List.mem_of_getElem? hi)
    exact hvector.symm
  | some api =>
    have hc : sent.Covers api texts := by
      have hnone : Sent.Covers api ⟨[], []⟩ [] := .nil
      have hall := sendBatches_covers h hnone
      rwa [List.nil_append, Windows.flatten_windows (by omega) texts (le_refl _)] at hall
    refine ⟨hc.length_eq.symm, fun i text vector ht hi => Or.inr ⟨api, rfl, ?_⟩⟩
    obtain ⟨ht', rfl⟩ := List.getElem?_eq_some_iff.mp ht
    obtain ⟨hi', rfl⟩ := List.getElem?_eq_some_iff.mp hi
    exact hc.get ht' hi'

/-- A batch that is refused for good, and then the first of its texts too. -/
def pickyApi : Api String Nat := fun c _ =>
  if c ≤ 1 then .response 400 none else .response 200 (some [⟨some 0, some [7]⟩])

theorem second_text_aligned : ∃ sent, generateEmbeddings (some pickyApi) false ["a", "b"] = .ok sent ∧
    sent.calls = [["a", "b"], ["a"], ["b"]] ∧ sent.out = [[], [7]] ∧
    ∃ api ∈ some pickyApi, Vouched api sent.calls "b" [7] := by
  refine ⟨_, rfl, rfl, rfl, ?_⟩
  rcases (embeddings_aligned (some pickyApi) false ["a", "b"] _ rfl).2 1 "b" [7] rfl rfl with hnone | hvouched
  · cases hnone
  · exact hvouched

end Akb.Embeddings
