import Akb.Grep.Bodies
import Mathlib.Algebra.GroupWithZero.Nat

/-! What the scan of one body materializes. -/
namespace Akb.Grep
open Akb.Library

/-! ### One snippet -/

theorem strip_eq (s : Text) : PyText.strip s = PyText.rstrip (s.dropWhile PyText.isSpace) := by
  obtain ⟨lead, trail, hs, hlead, htrail⟩ := PyText.strip_spec s
  by_cases hnil : PyText.strip s = []
  · have hblank : s.dropWhile PyText.isSpace = [] := by
      rw [List.dropWhile_eq_nil_iff, hs, hnil, List.append_nil]
      exact List.forall_mem_append.mpr ⟨hlead, htrail⟩
    rw [hnil, hblank]
    rfl
  · have hdrop : s.dropWhile PyText.isSpace = PyText.strip s ++ trail := by
      obtain ⟨c, rest, hstrip⟩ := List.exists_cons_of_ne_nil hnil
      have hc := PyText.head_of_strip (PyText.strip_strip s) c (by rw [hstrip, List.head?_cons, Option.mem_some])
      conv_lhs => rw [hs, List.append_assoc]
      rw [List.dropWhile_append_of_pos hlead, hstrip, List.cons_append, List.dropWhile_cons_of_neg (by simp [hc])]
    rw [hdrop, PyText.rstrip_append_blanks htrail, PyText.rstrip_strip]

theorem drop_lead (line : Text) : line.drop (line.takeWhile PyText.isSpace).length = line.dropWhile PyText.isSpace := by
  have hsplit := congrArg (List.drop (line.takeWhile PyText.isSpace).length)
    (List.takeWhile_append_dropWhile (p := PyText.isSpace) (l := line))
  rw [List.drop_left] at hsplit
  exact hsplit.symm

/-- The characters of the stripped line that may be encoded. -/
theorem fragment_eq (line : Text) (n : Nat) :
    (line.take (min ((line.takeWhile PyText.isSpace).length + (PyText.strip line).length)
      ((line.takeWhile PyText.isSpace).length + n))).drop (line.takeWhile PyText.isSpace).length =
      (PyText.strip line).take n := by
  have hprefix : PyText.strip line <+: line.dropWhile PyText.isSpace := PyText.strip_prefix line
  rw [Nat.add_min_add_left, List.drop_take, drop_lead, Nat.add_sub_cancel_left, min_comm, ← List.take_take,
    ← List.prefix_iff_eq_take.mp hprefix]

/-- A snippet is within its bytes, and it is the stripped line where nothing was cut off. -/
structure SnippetOf (line : Text) (maxBytes : Int) (s : Snippet) : Prop where
  bytes : s.bytes = (Utf8.encode s.text).length
  fits : (s.bytes : Int) ≤ max 0 maxBytes
  whole : s.truncated = false → s.text = PyText.strip line

theorem boundedSnippet_spec (line : Text) (maxBytes : Int) : SnippetOf line maxBytes (boundedSnippet line maxBytes) := by
  simp only [boundedSnippet, drop_lead, ← strip_eq, fragment_eq]
  split
  · refine ⟨rfl, Int.le_max_left _ _, fun h => ?_⟩
    have hnone := of_decide_eq_false h
    exact (List.length_eq_zero_iff.mp (by omega)).symm
  · rename_i hpos
    have hbytes : ((maxBytes.toNat : Nat) : Int) = maxBytes := Int.toNat_of_nonneg (by omega)
    have hprefix : (PyText.strip line).take maxBytes.toNat <+: PyText.strip line := List.take_prefix _ _
    split
    · rw [Utf8.decodeIgnore_take]
      have hfits := Utf8.length_encode_fitting maxBytes.toNat ((PyText.strip line).take maxBytes.toNat)
      refine ⟨rfl, ?_, fun h => ?_⟩
      · simp only
        omega
      · have hlong := of_decide_eq_false h
        exact ((Utf8.fitting_prefix _ _).trans hprefix).eq_of_length_le (by omega)
    · rename_i hshort
      refine ⟨rfl, ?_, fun h => ?_⟩
      · simp only
        omega
      · have hlong := of_decide_eq_false h
        exact hprefix.eq_of_length_le (by omega)

/-! ### One line -/

/-- What the scan does with a matching line of a returned resource. -/
inductive Kept (limits : GrepScanLimits) (s : Found) (line : Text) (number : Nat) : Found → Prop where
  | dropped (reasons : List Reason) (h : reasons ≠ []) : Kept limits s line number { s with reasons := reasons }
  | written (text : Text) (reasons : List Reason)
      (hmatches : (s.lines.length : Int) < limits.matchesPerResource)
      (htotal : (s.materializedMatches : Int) < limits.totalMatches)
      (hsnippet : ((Utf8.encode text).length : Int) ≤ max 0 limits.snippetBytes)
      (hresource : (s.resourceBytes + (Utf8.encode text).length : Int) ≤ limits.snippetBytesPerResource)
      (hbytes : (s.materializedBytes + (Utf8.encode text).length : Int) ≤ limits.totalSnippetBytes)
      (hwhole : reasons = [] → s.reasons = [] ∧ text = PyText.strip line) :
      Kept limits s line number
        { s with
          lines := s.lines ++ [⟨number, text⟩]
          resourceBytes := s.resourceBytes + (Utf8.encode text).length
          materializedBytes := s.materializedBytes + (Utf8.encode text).length
          materializedMatches := s.materializedMatches + 1
          reasons := reasons }

theorem addIf_ne_nil {condition : Prop} [Decidable condition] {reason : Reason} {reasons : List Reason}
    (h : condition ∨ reasons ≠ []) : addIf condition reason reasons ≠ [] := by
  rw [addIf]
  split
  · exact List.ne_nil_of_mem List.mem_insert_self
  · rename_i hno
    exact h.resolve_left hno

theorem keep_cases (limits : GrepScanLimits) (s : Found) (line : Text) (number : Nat) :
    Kept limits s line number (s.keep limits line number) := by
  rw [Found.keep]
  split
  · rename_i hlimited
    apply Kept.dropped
    rcases hlimited with h | h
    · exact addIf_ne_nil (Or.inr (addIf_ne_nil (Or.inl h)))
    · exact addIf_ne_nil (Or.inl h)
  · rename_i hmatches
    split
    · rename_i hlimited
      apply Kept.dropped
      rcases hlimited with h | h
      · exact addIf_ne_nil (Or.inr (addIf_ne_nil (Or.inl h)))
      · exact addIf_ne_nil (Or.inl h)
    · rename_i hbytes
      have hspec := boundedSnippet_spec line
        (min limits.snippetBytes (min (limits.snippetBytesPerResource - s.resourceBytes) (limits.totalSnippetBytes - s.materializedBytes)))
      have hfits := hspec.fits
      rw [Found.materialize]
      simp only [hspec.bytes] at hfits ⊢
      apply Kept.written
      · omega
      · omega
      · omega
      · omega
      · omega
      · split
        · intro h
          exact absurd h (addIf_ne_nil (Or.inr (addIf_ne_nil (Or.inr (List.ne_nil_of_mem List.mem_insert_self)))))
        · rename_i hwhole
          exact fun h => ⟨h, hspec.whole ((Bool.not_eq_true _).mp hwhole)⟩

/-! The scan of one body: which lines it counts, and which of them it writes down. -/
def matching (matcher : Text → Bool) (entries : List (Text × Nat)) : List (Text × Nat) := entries.filter (fun e => matcher e.1)

/-- The matching lines in full. -/
def fullLines (matcher : Text → Bool) (entries : List (Text × Nat)) : List LineMatch :=
  (matching matcher entries).map (fun e => ⟨e.2, PyText.strip e.1⟩)

def LineMatch.bytes (m : LineMatch) : Nat := (Utf8.encode m.text).length

def bytesOf (lines : List LineMatch) : Nat := (lines.map LineMatch.bytes).sum

theorem bytesOf_append (a b : List LineMatch) : bytesOf (a ++ b) = bytesOf a + bytesOf b := by
  rw [bytesOf, List.map_append, List.sum_append]
  rfl

/-- The state before the first line of a body. -/
def Found.begin (materializedMatches materializedBytes : Nat) (reasons : List Reason) : Found :=
  ⟨[], 0, 0, materializedMatches, materializedBytes, reasons⟩

variable {limits : GrepScanLimits} {matcher : Text → Bool}

theorem matching_snoc_of_match (entries : List (Text × Nat)) {e : Text × Nat} (h : matcher e.1 = true) :
    matching matcher (entries ++ [e]) = matching matcher entries ++ [e] := by
  simp only [matching, List.filter_append, List.filter_cons, h, if_true, List.filter_nil]

theorem matching_snoc_of_no_match (entries : List (Text × Nat)) {e : Text × Nat} (h : ¬ matcher e.1 = true) :
    matching matcher (entries ++ [e]) = matching matcher entries := by
  simp only [matching, List.filter_append, List.filter_cons, h, if_false, List.filter_nil, List.append_nil, Bool.false_eq_true]

/-- Without a matching line nothing happens. -/
theorem visit_none (returned : Bool) (s : Found) {entries : List (Text × Nat)} (h : matching matcher entries = []) :
    entries.foldl (Found.visit limits matcher returned) s = s := by
  induction entries with
  | nil => rfl
  | cons e entries ih =>
    obtain ⟨hno, hrest⟩ := List.forall_mem_cons.mp (List.filter_eq_nil_iff.mp h)
    rw [List.foldl_cons, Found.visit, if_neg hno]
    exact ih (List.filter_eq_nil_iff.mpr hrest)

/-! ### A resource that is not returned -/

/-- Lines of a resource that is not returned are counted only. -/
theorem visit_unreturned (s : Found) (entries : List (Text × Nat)) :
    entries.foldl (Found.visit limits matcher false) s =
      { s with resourceMatches := s.resourceMatches + (matching matcher entries).length } := by
  induction entries using List.reverseRecOn with
  | nil => rfl
  | append_singleton entries e ih =>
    rw [List.foldl_append, ih, List.foldl_cons, List.foldl_nil, Found.visit]
    by_cases h : matcher e.1 = true
    · rw [if_pos h, if_neg Bool.false_ne_true, matching_snoc_of_match entries h, List.length_append]
      rfl
    · rw [if_neg h, matching_snoc_of_no_match entries h]

/-! ### A resource that is returned -/

/-- What the lines seen so far have left behind. -/
structure Written (limits : GrepScanLimits) (matcher : Text → Bool) (entries : List (Text × Nat)) (start s : Found) : Prop where
  count : s.resourceMatches = (matching matcher entries).length
  resourceBytes : s.resourceBytes = bytesOf s.lines
  materializedMatches : s.materializedMatches = start.materializedMatches + s.lines.length
  materializedBytes : s.materializedBytes = start.materializedBytes + bytesOf s.lines
  matches_le : (s.lines.length : Int) ≤ max 0 limits.matchesPerResource
  total_le : (s.materializedMatches : Int) ≤ max (start.materializedMatches : Int) limits.totalMatches
  snippet_le : ∀ m ∈ s.lines, (m.bytes : Int) ≤ max 0 limits.snippetBytes
  resource_le : (s.resourceBytes : Int) ≤ max 0 limits.snippetBytesPerResource
  bytes_le : (s.materializedBytes : Int) ≤ max (start.materializedBytes : Int) limits.totalSnippetBytes
  full : s.reasons = [] → start.reasons = [] ∧ s.lines = fullLines matcher entries

theorem Written.begin (materializedMatches materializedBytes : Nat) (reasons : List Reason) :
    Written limits matcher [] (Found.begin materializedMatches materializedBytes reasons)
      (Found.begin materializedMatches materializedBytes reasons) where
  count := rfl
  resourceBytes := rfl
  materializedMatches := rfl
  materializedBytes := rfl
  matches_le := Int.le_max_left _ _
  total_le := Int.le_max_left _ _
  snippet_le := fun _ hm => absurd hm List.not_mem_nil
  resource_le := Int.le_max_left _ _
  bytes_le := Int.le_max_left _ _
  full := fun h => ⟨h, rfl⟩

theorem Written.visit {entries : List (Text × Nat)} {start s : Found} (h : Written limits matcher entries start s)
    (e : Text × Nat) : Written limits matcher (entries ++ [e]) start (s.visit limits matcher true e) := by
  rw [Found.visit]
  by_cases hmatch : matcher e.1 = true
  · rw [if_pos hmatch, if_pos rfl]
    have hcount : s.resourceMatches + 1 = (matching matcher (entries ++ [e])).length := by
      rw [matching_snoc_of_match entries hmatch, List.length_append, h.count]
      rfl
    have hkept := keep_cases limits s.counted e.1 e.2
    generalize s.counted.keep limits e.1 e.2 = s' at hkept ⊢
    cases hkept with
    | dropped reasons hreasons =>
      exact { h with
        count := hcount
        full := fun hnil => absurd hnil hreasons }
    | written text reasons hmatches htotal hsnippet hresource hbytes hwhole =>
      have hsum : bytesOf (s.lines ++ [⟨e.2, text⟩]) = bytesOf s.lines + (Utf8.encode text).length := bytesOf_append _ _
      have hbytesOf := h.resourceBytes
      have htotalMatches := h.materializedMatches
      have htotalBytes := h.materializedBytes
      simp only [Found.counted] at hmatches htotal hresource hbytes hwhole
      refine ⟨hcount, ?_, ?_, ?_, ?_, ?_, ?_, ?_, ?_, ?_⟩
      · exact (congrArg (· + _) hbytesOf).trans hsum.symm
      · simp only [Found.counted, List.length_append, List.length_singleton]
        omega
      · simp only [Found.counted, hsum]
        omega
      · simp only [Found.counted, List.length_append, List.length_singleton]
        omega
      · simp only [Found.counted]
        omega
      · exact List.forall_mem_append.mpr ⟨h.snippet_le, List.forall_mem_singleton.mpr hsnippet⟩
      · simp only [Found.counted]
        omega
      · simp only [Found.counted]
        omega
      · intro hnil
        obtain ⟨hreasons, htext⟩ := hwhole hnil
        obtain ⟨hstart, hlines⟩ := h.full hreasons
        refine ⟨hstart, ?_⟩
        simp only [Found.counted]
        rw [fullLines, matching_snoc_of_match entries hmatch, List.map_append, hlines, htext]
        rfl
  · rw [if_neg hmatch]
    exact { h with
      count := (matching_snoc_of_no_match entries hmatch).symm ▸ h.count
      full := fun hnil => by
        rw [fullLines, matching_snoc_of_no_match entries hmatch]
        exact h.full hnil }

theorem Written.visitAll (entries : List (Text × Nat)) (start : Found) (h : Written limits matcher [] start start) :
    Written limits matcher entries start (entries.foldl (Found.visit limits matcher true) start) := by
  induction entries using List.reverseRecOn with
  | nil => exact h
  | append_singleton entries e ih =>
    rw [List.foldl_append]
    exact ih.visit e

theorem visit_count (returned : Bool) (entries : List (Text × Nat)) (materializedMatches materializedBytes : Nat)
    (reasons : List Reason) :
    (entries.foldl (Found.visit limits matcher returned)
      (Found.begin materializedMatches materializedBytes reasons)).resourceMatches = (matching matcher entries).length := by
  cases returned with
  | false =>
    rw [visit_unreturned]
    exact Nat.zero_add _
  | true => exact (Written.visitAll entries _ (Written.begin _ _ _)).count

end Akb.Grep
