import Akb.Library.PyText
import Akb.Uri.Names

/-! When a normalized collection path is the one spelling of its collection. -/
namespace Akb.Uri
open Akb.Library Akb.Library.Segments Akb.Library.Stripping

def isSlash (c : Char) : Bool := c = '/'

/-- The characters that a caller may put around a collection path. -/
def isSurrounding (c : Char) : Bool := PyText.isSpace c || isSlash c

/-- Neither end is whitespace or a slash, and no segment is empty; the root has no segments. -/
structure Canonical (c : Text) : Prop where
  ends : Clean isSurrounding c
  segments : c = [] ∨ ∀ segment ∈ split c, segment ≠ []

/-- The whitespace around the path stands outside the slashes around it, and neither is left inside. -/
def BlanksOutside (path : Text) : Prop :=
  ∃ before slashes core slashes' after, path = before ++ (slashes ++ core ++ slashes') ++ after ∧
    (∀ c ∈ before, PyText.isSpace c) ∧ (∀ c ∈ after, PyText.isSpace c) ∧
    (∀ c ∈ slashes, isSlash c) ∧ (∀ c ∈ slashes', isSlash c) ∧ Clean isSurrounding core

/-- The paths differ only in the whitespace and the slashes around them. -/
def SameInside (path path' : Text) : Prop :=
  ∃ inside before after before' after', path = before ++ inside ++ after ∧ path' = before' ++ inside ++ after' ∧
    (∀ c ∈ before ++ after, isSurrounding c) ∧ ∀ c ∈ before' ++ after', isSurrounding c

theorem slash_not_space {c : Char} (h : isSlash c) : PyText.isSpace c = false := by
  rw [of_decide_eq_true h]
  decide

theorem isSpace_surrounding {c : Char} (h : PyText.isSpace c) : isSurrounding c := by
  rw [isSurrounding, h, Bool.true_or]

theorem isSlash_surrounding {c : Char} (h : isSlash c) : isSurrounding c := by
  rw [isSurrounding, h, Bool.or_true]

theorem stripSlashes_def (path : Text) : stripSlashes path = strip isSlash path := rfl

theorem strip_blanks_def (path : Text) : PyText.strip path = strip PyText.isSpace path := by
  have hreverse : PyText.strip path = (strip PyText.isSpace path.reverse).reverse := by
    rw [strip, List.reverse_reverse]
    rfl
  rw [hreverse, strip_reverse, List.reverse_reverse]

theorem strips_of_blanksOutside {before slashes core slashes' after : Text} (hb : ∀ c ∈ before, PyText.isSpace c)
    (ha : ∀ c ∈ after, PyText.isSpace c) (hs : ∀ c ∈ slashes, isSlash c) (hs' : ∀ c ∈ slashes', isSlash c)
    (hcore : Clean isSurrounding core) :
    stripSlashes (PyText.strip (before ++ (slashes ++ core ++ slashes') ++ after)) = core := by
  have hinner : Clean PyText.isSpace (slashes ++ core ++ slashes') :=
    (hcore.mono fun c => isSpace_surrounding).around (fun c hc => slash_not_space (hs c hc))
      fun c hc => slash_not_space (hs' c hc)
  rw [strip_blanks_def, strip_of_clean hb hinner ha, stripSlashes_def,
    strip_of_clean hs (hcore.mono fun c => isSlash_surrounding) hs']

/-- A normalized path is the text between the surroundings, in segments that pass their check. -/
theorem normalizeCollectionPath_spec {path : Option Text} {allowEmpty : Bool} {c : Text}
    (h : normalizeCollectionPath path allowEmpty = .ok c) :
    c = stripSlashes (PyText.strip (path.getD [])) ∧
      (c = [] ∧ allowEmpty = true ∨ c ≠ [] ∧ utf8Length c ≤ maxPathBytes ∧
        ∀ segment ∈ split c, checkSegment (path.getD []) segment = .ok ()) := by
  unfold normalizeCollectionPath at h
  simp only at h
  split at h
  · rename_i hempty
    split at h
    · rename_i hallow
      obtain rfl := Except.ok.inj h
      exact ⟨hempty.symm, Or.inl ⟨rfl, hallow⟩⟩
    · cases h
  rename_i hne
  split at h
  · cases h
  rename_i hlength
  obtain ⟨⟨⟩, hall, hc⟩ := bind_eq_ok.mp h
  have hjoin : stripSlashes (PyText.strip (path.getD [])) = c := by
    rw [← pure_eq_ok.mp hc, join_split]
  rw [hjoin] at hne hlength hall
  exact ⟨hjoin.symm, Or.inr ⟨hne, Nat.not_lt.mp hlength, fun segment hs => forM_eq_ok hall segment hs⟩⟩

theorem checkSegment_path {path path' segment : Text} (h : checkSegment path segment = .ok ()) :
    checkSegment path' segment = .ok () := by
  unfold checkSegment at h ⊢
  split at h
  · cases h
  split at h
  · cases h
  split at h
  · cases h
  rename_i hdots hchars hreserved
  rw [if_neg hdots, if_neg hchars, if_neg hreserved]

theorem forM_checkSegment {path : Text} {segments : List Text} (h : ∀ s ∈ segments, checkSegment path s = .ok ()) :
    segments.forM (checkSegment path) = .ok () := by
  induction segments with
  | nil => rfl
  | cons s segments ih =>
    have hrest := ih fun t ht => h t (List.mem_cons_of_mem _ ht)
    exact bind_eq_ok.mpr ⟨⟨⟩, h s List.mem_cons_self, hrest⟩

/-- A normalized path with clean ends is a fixed point. -/
theorem normalizeCollectionPath_fixed {path : Option Text} {allowEmpty : Bool} {c : Text}
    (h : normalizeCollectionPath path allowEmpty = .ok c) (hc : Clean isSurrounding c) :
    normalizeCollectionPath (some c) allowEmpty = .ok c := by
  obtain ⟨-, hcase⟩ := normalizeCollectionPath_spec h
  have hself : stripSlashes (PyText.strip c) = c := by
    have hstrips : stripSlashes (PyText.strip ([] ++ ([] ++ c ++ []) ++ [])) = c :=
      strips_of_blanksOutside (by simp) (by simp) (by simp) (by simp) hc
    simpa using hstrips
  unfold normalizeCollectionPath
  simp only [Option.getD_some, hself]
  rcases hcase with ⟨hempty, hallow⟩ | ⟨hne, hlength, hall⟩
  · rw [if_pos hempty, if_pos hallow, hempty]
  · rw [if_neg hne, if_neg (Nat.not_lt.mpr hlength),
      forM_checkSegment fun segment hs => checkSegment_path (hall segment hs)]
    exact congrArg Except.ok (join_split c)

theorem segments_ne_nil {path : Option Text} {allowEmpty : Bool} {c : Text}
    (h : normalizeCollectionPath path allowEmpty = .ok c) : c = [] ∨ ∀ segment ∈ split c, segment ≠ [] :=
  (normalizeCollectionPath_ok h).imp_right fun hall segment hs => (hall segment hs).1

theorem blanksOutside_of_clean {path : Text} (h : Clean isSurrounding (stripSlashes (PyText.strip path))) :
    BlanksOutside path := by
  obtain ⟨before, after, hpath, hbefore, hafter, -⟩ := strip_spec PyText.isSpace path
  obtain ⟨slashes, slashes', hinner, hslashes, hslashes', -⟩ := strip_spec isSlash (PyText.strip path)
  refine ⟨before, slashes, _, slashes', after, ?_, hbefore, hafter, hslashes, hslashes', h⟩
  rw [stripSlashes_def, ← hinner, strip_blanks_def]
  exact hpath

theorem clean_of_blanksOutside {path : Text} (h : BlanksOutside path) :
    Clean isSurrounding (stripSlashes (PyText.strip path)) := by
  obtain ⟨before, slashes, core, slashes', after, hpath, hb, ha, hs, hs', hcore⟩ := h
  rw [hpath, strips_of_blanksOutside hb ha hs hs' hcore]
  exact hcore

/-- A clean normalized path is what is left when everything around the path is taken off. -/
theorem strip_surrounding {path : Text} (h : Clean isSurrounding (stripSlashes (PyText.strip path))) :
    strip isSurrounding path = stripSlashes (PyText.strip path) := by
  obtain ⟨before, slashes, core, slashes', after, hpath, hb, ha, hs, hs', hcore⟩ := blanksOutside_of_clean h
  have hmore : path = (before ++ slashes) ++ core ++ (slashes' ++ after) := by
    rw [hpath]
    simp only [List.append_assoc]
  have hlead : ∀ c ∈ before ++ slashes, isSurrounding c := fun c hc =>
    (List.mem_append.mp hc).elim (fun hm => isSpace_surrounding (hb c hm)) fun hm => isSlash_surrounding (hs c hm)
  have htrail : ∀ c ∈ slashes' ++ after, isSurrounding c := fun c hc =>
    (List.mem_append.mp hc).elim (fun hm => isSlash_surrounding (hs' c hm)) fun hm => isSpace_surrounding (ha c hm)
  rw [hpath, strips_of_blanksOutside hb ha hs hs' hcore, ← hpath, hmore, strip_of_clean hlead hcore htrail]

/-- A normalized path is normalized to itself and canonical exactly when the caller put the whitespace outside the
slashes, and two such paths for one collection that differ only around it are normalized to the same. -/
theorem normalized_canonical_iff (allowEmpty : Bool) :
    (∀ path c, normalizeCollectionPath (some path) allowEmpty = .ok c →
      (normalizeCollectionPath (some c) allowEmpty = .ok c ∧ Canonical c ↔ BlanksOutside path)) ∧
    ∀ path path' c c', normalizeCollectionPath (some path) allowEmpty = .ok c →
      normalizeCollectionPath (some path') allowEmpty = .ok c' → BlanksOutside path → BlanksOutside path' →
      SameInside path path' → c = c' := by
  refine ⟨fun path c h => ⟨fun hcanonical => ?_, fun hblanks => ?_⟩, ?_⟩
  · obtain ⟨hc, -⟩ := normalizeCollectionPath_spec h
    rw [hc] at hcanonical
    exact blanksOutside_of_clean hcanonical.2.ends
  · obtain ⟨hc, -⟩ := normalizeCollectionPath_spec h
    have hclean : Clean isSurrounding c := hc ▸ clean_of_blanksOutside hblanks
    exact ⟨normalizeCollectionPath_fixed h hclean, hclean, segments_ne_nil h⟩
  · rintro path path' c c' h h' hblanks hblanks' ⟨inside, before, after, before', after', hpath, hpath', hall, hall'⟩
    obtain ⟨hc, -⟩ := normalizeCollectionPath_spec h
    obtain ⟨hc', -⟩ := normalizeCollectionPath_spec h'
    have hstrip := strip_surrounding (clean_of_blanksOutside hblanks)
    have hstrip' := strip_surrounding (clean_of_blanksOutside hblanks')
    rw [hpath, strip_around (fun x hx => hall x (List.mem_append_left _ hx)) fun x hx =>
      hall x (List.mem_append_right _ hx), ← hpath] at hstrip
    rw [hpath', strip_around (fun x hx => hall' x (List.mem_append_left _ hx)) fun x hx =>
      hall' x (List.mem_append_right _ hx), ← hpath'] at hstrip'
    exact hc.trans (hstrip.symm.trans (hstrip'.trans hc'.symm))

/-- Whitespace between a slash and the name stays, so a second pass names another collection. -/
theorem blank_after_slash_kept :
    normalizeCollectionPath (some "/ specs".toList) true = .ok " specs".toList ∧
    normalizeCollectionPath (some " specs".toList) true = .ok "specs".toList ∧
    ¬ Canonical " specs".toList ∧ SameInside "/ specs".toList "specs".toList ∧
    normalizeCollectionPath (some "specs".toList) true = .ok "specs".toList := by
  refine ⟨rfl, rfl, fun h => ?_, ⟨"specs".toList, ['/', ' '], [], [], [], rfl, rfl, by decide, by decide⟩, rfl⟩
  exact absurd (h.ends.head ' ' rfl) (by decide)

theorem surrounded_path_canonical :
    (normalizeCollectionPath (some "specs/api".toList) true = .ok "specs/api".toList ∧ Canonical "specs/api".toList ↔
      BlanksOutside " /specs/api/ ".toList) ∧
    "specs/api".toList = "specs/api".toList := by
  have hcore : Clean isSurrounding "specs/api".toList := ⟨by decide, by decide⟩
  have hwritten : BlanksOutside " /specs/api/ ".toList :=
    ⟨[' '], ['/'], "specs/api".toList, ['/'], [' '], rfl, by decide, by decide, by decide, by decide, hcore⟩
  have hbare : BlanksOutside "//specs/api".toList :=
    ⟨[], ['/', '/'], "specs/api".toList, [], [], rfl, by decide, by decide, by decide, by decide, hcore⟩
  refine ⟨(normalized_canonical_iff true).1 _ _ rfl, (normalized_canonical_iff true).2 _ _ _ _ rfl rfl hwritten hbare ?_⟩
  exact ⟨"specs/api".toList, [' ', '/'], ['/', ' '], ['/', '/'], [], rfl, rfl, by decide, by decide⟩

end Akb.Uri
