import Akb.Grep.Lines

/-! The scan of all bodies: its totals, the limits of what it returns, and when that is everything. -/
namespace Akb.Grep
open Akb.Library

section Specification
variable (r : Request)

def matchCount (b : HeadBody) : Nat := (matching r.matcher (b.numberedLines r.parseMarkdown)).length

def matchedBodies (entries : List (HeadBody × Nat)) : List (HeadBody × Nat) := entries.filter (fun e => matchCount r e.1 ≠ 0)

/-- A resource with all its matching lines. -/
def fullItem (e : HeadBody × Nat) : Item := e.1.item r.parseMarkdown (fullLines r.matcher (e.1.numberedLines r.parseMarkdown)) e.2

structure Totals where
  totalMatches : Nat
  totalResources : Nat
  totalDocuments : Nat
  byResource : List (Text × Nat)
  byDocument : List (Text × Nat)
  matchedBodyIndexes : List Nat

def countsByUri (entries : List (HeadBody × Nat)) : List (Text × Nat) :=
  entries.foldl (fun d e => setKey e.1.uri (matchCount r e.1) d) []

def matchedDocuments (entries : List (HeadBody × Nat)) : List (HeadBody × Nat) :=
  (matchedBodies r entries).filter (fun e => e.1.surface = .document)

/-- The totals of a scan without limits. -/
def unlimitedTotals (entries : List (HeadBody × Nat)) : Totals where
  totalMatches := (entries.map (fun e => matchCount r e.1)).sum
  totalResources := (matchedBodies r entries).length
  totalDocuments := (matchedDocuments r entries).length
  byResource := if r.mode = .countOnly then countsByUri r (matchedBodies r entries) else []
  byDocument := if r.mode = .countOnly then countsByUri r (matchedDocuments r entries) else []
  matchedBodyIndexes := if r.collectMatchedBodyIndexes then (matchedBodies r entries).map Prod.snd else []

end Specification

def Scan.totals (s : Scan) : Totals :=
  ⟨s.totalMatches, s.totalResources, s.totalDocuments, s.byResource, s.byDocument, s.matchedBodyIndexes⟩

def ScanResult.totals (s : ScanResult) : Totals :=
  ⟨s.totalMatches, s.totalResources, s.totalDocuments, s.byResource, s.byDocument, s.matchedBodyIndexes⟩

variable {r : Request}

/-! ### One body -/

theorem lines_eq (s : Scan) (b : HeadBody) :
    s.lines r b = (b.numberedLines r.parseMarkdown).foldl (Found.visit r.limits r.matcher (s.returnsResource r))
      (Found.begin s.materializedMatches s.materializedBytes s.reasons) := rfl

theorem lines_count (s : Scan) (b : HeadBody) : (s.lines r b).resourceMatches = matchCount r b :=
  visit_count _ _ _ _ _

/-- A body without a matching line leaves the scan as it is. -/
theorem visit_unmatched (s : Scan) {e : HeadBody × Nat} (h : matchCount r e.1 = 0) : s.visit r e = s := by
  have hnone : s.lines r e.1 = Found.begin s.materializedMatches s.materializedBytes s.reasons :=
    visit_none _ _ (List.length_eq_zero_iff.mp h)
  simp only [Scan.visit, hnone]
  rfl

theorem matchedBodies_unmatched (entries : List (HeadBody × Nat)) {e : HeadBody × Nat} (h : matchCount r e.1 = 0) :
    matchedBodies r (entries ++ [e]) = matchedBodies r entries := by
  simp only [matchedBodies, List.filter_append, List.filter_cons, h, ne_eq, not_true_eq_false, decide_false,
    Bool.false_eq_true, if_false, List.filter_nil, List.append_nil]

theorem matchedBodies_matched (entries : List (HeadBody × Nat)) {e : HeadBody × Nat} (h : matchCount r e.1 ≠ 0) :
    matchedBodies r (entries ++ [e]) = matchedBodies r entries ++ [e] := by
  simp only [matchedBodies, List.filter_append, List.filter_cons, h, ne_eq, not_false_eq_true, decide_true, if_true,
    List.filter_nil]

/-! ### The totals -/

theorem totals_visit {s : Scan} {entries : List (HeadBody × Nat)} (h : s.totals = unlimitedTotals r entries)
    (e : HeadBody × Nat) : (s.visit r e).totals = unlimitedTotals r (entries ++ [e]) := by
  by_cases hcount : matchCount r e.1 = 0
  · rw [visit_unmatched s hcount, h]
    simp only [unlimitedTotals, matchedDocuments, matchedBodies_unmatched entries hcount, List.map_append, List.map_singleton,
      List.sum_append, List.sum_singleton, hcount, Nat.add_zero]
  · simp only [Scan.totals, unlimitedTotals, Totals.mk.injEq] at h
    obtain ⟨hmatches, hresources, hdocuments, hbyResource, hbyDocument, hindexes⟩ := h
    have hmatched := matchedBodies_matched entries hcount
    simp only [Scan.visit, lines_count, if_neg hcount, Scan.totals, unlimitedTotals, Totals.mk.injEq, matchedDocuments,
      hmatched, List.filter_append]
    refine ⟨?_, ?_, ?_, ?_, ?_, ?_⟩
    · rw [hmatches, List.map_append, List.sum_append]
      rfl
    · rw [hresources, List.length_append]
      rfl
    · rw [hdocuments, matchedDocuments, List.length_append]
      by_cases hdocument : e.1.surface = .document
      · simp [hdocument]
      · simp [hdocument]
    · rw [hbyResource]
      split
      · rw [countsByUri, countsByUri, List.foldl_append]
        rfl
      · rfl
    · rw [hbyDocument, matchedDocuments]
      by_cases hdocument : e.1.surface = .document
      · by_cases hmode : r.mode = .countOnly
        · simp [hdocument, hmode, countsByUri]
        · simp [hmode]
      · simp [hdocument]
    · rw [hindexes]
      split
      · rw [List.map_append]
        rfl
      · rfl

end Akb.Grep

/-! What a scan returns is within its limits, and without a reason for truncation it is everything. -/
namespace Akb.Grep
open Akb.Library

def matchesIn (items : List Item) : Nat := (items.map (fun item => item.matchedLines.length)).sum

def bytesIn (items : List Item) : Nat := (items.map (fun item => bytesOf item.matchedLines)).sum

theorem matchesIn_snoc (items : List Item) (item : Item) : matchesIn (items ++ [item]) = matchesIn items + item.matchedLines.length := by
  simp only [matchesIn, List.map_append, List.sum_append, List.map_singleton, List.sum_singleton]

theorem bytesIn_snoc (items : List Item) (item : Item) : bytesIn (items ++ [item]) = bytesIn items + bytesOf item.matchedLines := by
  simp only [bytesIn, List.map_append, List.sum_append, List.map_singleton, List.sum_singleton]

/-- A returned resource within the limits of one resource. -/
structure ItemWithin (limits : GrepScanLimits) (item : Item) : Prop where
  matches_le : (item.matchedLines.length : Int) ≤ max 0 limits.matchesPerResource
  snippet_le : ∀ m ∈ item.matchedLines, (m.bytes : Int) ≤ max 0 limits.snippetBytes
  bytes_le : (bytesOf item.matchedLines : Int) ≤ max 0 limits.snippetBytesPerResource

/-- The returned resources within all limits. -/
structure Within (r : Request) (items : List Item) : Prop where
  resources_le : (items.length : Int) ≤ max 0 r.resourceLimit
  each : ∀ item ∈ items, ItemWithin r.limits item
  matches_le : (matchesIn items : Int) ≤ max 0 r.limits.totalMatches
  bytes_le : (bytesIn items : Int) ≤ max 0 r.limits.totalSnippetBytes

/-- What the bodies seen so far have left behind. -/
structure Scanned (r : Request) (entries : List (HeadBody × Nat)) (s : Scan) : Prop where
  items_le : s.items.length ≤ s.totalResources
  materializedMatches : s.materializedMatches = matchesIn s.items
  materializedBytes : s.materializedBytes = bytesIn s.items
  within : Within r s.items
  resources : s.resources = if r.mode = .filesWithMatches then (matchedBodies r entries).map (fun e => e.1.resource) else []
  full : s.reasons = [] → s.items.length = s.totalResources → s.items = (matchedBodies r entries).map (fullItem r)

variable {r : Request}

theorem scanned_start : Scanned r [] Scan.start where
  items_le := Nat.le_refl 0
  materializedMatches := rfl
  materializedBytes := rfl
  within := ⟨Int.le_max_left _ _, fun _ h => absurd h List.not_mem_nil, Int.le_max_left _ _, Int.le_max_left _ _⟩
  resources := by split <;> rfl
  full := fun _ _ => rfl

/-- One more returned resource. -/
theorem Within.snoc {items : List Item} {item : Item} (h : Within r items) (hitem : ItemWithin r.limits item)
    (hresources : (items.length : Int) < r.resourceLimit)
    (hmatches : (matchesIn items + item.matchedLines.length : Int) ≤
      max 0 r.limits.totalMatches)
    (hbytes : (bytesIn items + bytesOf item.matchedLines : Int) ≤
      max 0 r.limits.totalSnippetBytes) : Within r (items ++ [item]) := by
  refine ⟨?_, List.forall_mem_append.mpr ⟨h.each, List.forall_mem_singleton.mpr hitem⟩, ?_, ?_⟩
  · rw [List.length_append, List.length_singleton]
    omega
  · rw [matchesIn_snoc]
    omega
  · rw [bytesIn_snoc]
    omega

theorem resources_snoc {entries : List (HeadBody × Nat)} {s : Scan} (h : Scanned r entries s) {e : HeadBody × Nat}
    (hcount : matchCount r e.1 ≠ 0) :
    (if r.mode = .filesWithMatches then s.resources ++ [e.1.resource] else s.resources) =
      if r.mode = .filesWithMatches then (matchedBodies r (entries ++ [e])).map (fun e => e.1.resource) else [] := by
  rw [h.resources, matchedBodies_matched entries hcount]
  split
  · rw [List.map_append]
    rfl
  · rfl

/-- A matching body that is only counted. -/
theorem Scanned.unreturned {entries : List (HeadBody × Nat)} {s : Scan} (h : Scanned r entries s) {e : HeadBody × Nat}
    (hcount : matchCount r e.1 ≠ 0) (hreturned : s.returnsResource r = false) : Scanned r (entries ++ [e]) (s.visit r e) := by
  have hlines : s.lines r e.1 =
      { Found.begin s.materializedMatches s.materializedBytes s.reasons with resourceMatches := matchCount r e.1 } := by
    rw [lines_eq, hreturned, visit_unreturned]
    exact congrArg (Found.mk _ · _ _ _ _) (Nat.zero_add _)
  have hitems := h.items_le
  simp only [Scan.visit, hlines, if_neg hcount, hreturned, Bool.false_eq_true, if_false]
  exact {
    items_le := Nat.le_succ_of_le hitems
    materializedMatches := h.materializedMatches
    materializedBytes := h.materializedBytes
    within := h.within
    resources := resources_snoc h hcount
    full := fun _ heq => by simp only at heq; omega }

/-- A matching body that is returned. -/
theorem Scanned.returned {entries : List (HeadBody × Nat)} {s : Scan} (h : Scanned r entries s) {e : HeadBody × Nat}
    (hcount : matchCount r e.1 ≠ 0) (hreturned : s.returnsResource r = true) : Scanned r (entries ++ [e]) (s.visit r e) := by
  have hbegin : Written r.limits r.matcher [] (Found.begin s.materializedMatches s.materializedBytes s.reasons) _ :=
    Written.begin s.materializedMatches s.materializedBytes s.reasons
  have hwritten := Written.visitAll (e.1.numberedLines r.parseMarkdown) _ hbegin
  have hlimit : (s.totalResources : Int) < r.resourceLimit := (of_decide_eq_true hreturned).2
  rw [← hreturned, ← lines_eq] at hwritten
  have hitems := h.items_le
  have hmatches := hwritten.materializedMatches
  have hbytes := hwritten.materializedBytes
  have hresourceBytes := hwritten.resourceBytes
  have hmatchesLe := hwritten.total_le
  have hbytesLe := hwritten.bytes_le
  have hsumMatches := h.materializedMatches
  have hsumBytes := h.materializedBytes
  have hwithinMatches := h.within.matches_le
  have hwithinBytes := h.within.bytes_le
  have hitem : ItemWithin r.limits (e.1.item r.parseMarkdown (s.lines r e.1).lines e.2) :=
    ⟨hwritten.matches_le, hwritten.snippet_le, hresourceBytes ▸ hwritten.resource_le⟩
  simp only [Found.begin] at hmatches hbytes hmatchesLe hbytesLe
  simp only [Scan.visit, lines_count, if_neg hcount, hreturned, if_true]
  refine {
    items_le := ?_
    materializedMatches := ?_
    materializedBytes := ?_
    within := h.within.snoc hitem (by omega) ?_ ?_
    resources := resources_snoc h hcount
    full := fun hreasons heq => ?_ }
  · simp only [List.length_append, List.length_singleton]
    omega
  · simp only [matchesIn_snoc]
    rw [hmatches, hsumMatches]
    rfl
  · simp only [bytesIn_snoc]
    rw [hbytes, hsumBytes]
    rfl
  · simp only [HeadBody.item]
    omega
  · simp only [HeadBody.item]
    omega
  · simp only [List.length_append, List.length_singleton] at heq
    obtain ⟨hstart, hlines⟩ := hwritten.full hreasons
    rw [h.full hstart (by omega), matchedBodies_matched entries hcount, List.map_append, hlines]
    rfl

theorem Scanned.visit {entries : List (HeadBody × Nat)} {s : Scan} (h : Scanned r entries s) (e : HeadBody × Nat) :
    Scanned r (entries ++ [e]) (s.visit r e) := by
  by_cases hcount : matchCount r e.1 = 0
  · rw [visit_unmatched s hcount]
    have hmatched := matchedBodies_unmatched entries hcount
    exact { h with
      resources := hmatched.symm ▸ h.resources
      full := hmatched.symm ▸ h.full }
  · cases hreturned : s.returnsResource r with
    | false => exact h.unreturned hcount hreturned
    | true => exact h.returned hcount hreturned

theorem scanned_all (entries : List (HeadBody × Nat)) :
    Scanned r entries (entries.foldl (Scan.visit r) Scan.start) ∧
      (entries.foldl (Scan.visit r) Scan.start).totals = unlimitedTotals r entries := by
  induction entries using List.reverseRecOn with
  | nil => exact ⟨scanned_start, by simp [Scan.totals, Scan.start, unlimitedTotals, matchedBodies, matchedDocuments, countsByUri]⟩
  | append_singleton entries e ih =>
    rw [List.foldl_append]
    exact ⟨ih.1.visit e, totals_visit ih.2 e⟩

/-! ### The whole scan -/

/-- Every matching resource is returned with every matching line in full. -/
structure Everything (r : Request) (bodies : List HeadBody) (result : ScanResult) : Prop where
  items : r.mode = .default → result.items = (matchedBodies r bodies.zipIdx).map (fullItem r)
  resources : r.mode = .filesWithMatches → result.resources = (matchedBodies r bodies.zipIdx).map (fun e => e.1.resource)

def CompleteUnlessTruncated (r : Request) (bodies : List HeadBody) (result : ScanResult) : Prop :=
  result.truncationReasons = [] → Everything r bodies result

theorem sortedReasons_eq_nil {reasons : List Reason} (h : sortedReasons reasons = []) : reasons = [] := by
  rw [List.eq_nil_iff_forall_not_mem]
  intro reason hmem
  have hall : reason ∈ Reason.all := by cases reason <;> decide
  have hnone := List.filter_eq_nil_iff.mp (List.map_eq_nil_iff.mp h) reason hall
  exact hnone (decide_eq_true hmem)

/-- The totals are those without limits, what is returned respects the limits, and it is everything unless a
reason says otherwise. -/
theorem scan_bodies_bounded (r : Request) (bodies : List HeadBody) :
    (scanBodies r bodies).totals = unlimitedTotals r bodies.zipIdx ∧
    (∀ limits resourceLimit,
      (scanBodies { r with limits := limits, resourceLimit := resourceLimit } bodies).totals = (scanBodies r bodies).totals) ∧
    Within r (scanBodies r bodies).items ∧ CompleteUnlessTruncated r bodies (scanBodies r bodies) := by
  have htotals (r' : Request) : (scanBodies r' bodies).totals = unlimitedTotals r' bodies.zipIdx := (scanned_all bodies.zipIdx).2
  obtain ⟨hscanned, -⟩ := scanned_all (r := r) bodies.zipIdx
  refine ⟨htotals r, fun limits resourceLimit => ?_, hscanned.within, fun hnone => ?_⟩
  · rw [htotals, htotals]
    rfl
  · have hreasons := sortedReasons_eq_nil hnone
    rw [addIf] at hreasons
    split at hreasons
    · exact absurd hreasons (List.ne_nil_of_mem List.mem_insert_self)
    · rename_i hall
      refine ⟨fun hmode => hscanned.full hreasons ?_, fun hmode => ?_⟩
      · have hitems := hscanned.items_le
        exact Nat.le_antisymm hitems (Nat.le_of_not_lt fun hlt => hall ⟨hmode, hlt⟩)
      · exact hscanned.resources.trans (if_pos hmode)

end Akb.Grep
